import SequentCalculus.Grammar.Reading
import SequentCalculus.Proofs.Words

/-! # Reading — what tokens lead to

    A reading only ever holds formulas made of the names it was given, so
    well-named tokens lead to well-named results (`Reading.WellNamed.feed`).

    A formula whose last operand is an atom, possibly under negations and
    quantifiers, is not assembled before the next token arrives.  So the reading
    reached by its tokens is not literally the one that holds the complete
    formula; it only goes on and ends like it (`Reading.Agrees`): whatever may
    stand behind an operand is read in the same way, and so is the end of the
    tokens. -/

namespace SequentCalculus

/-! ## Results are made of the names read -/

/-- The formulas and variables that a clause holds are well-named. -/
structure Clause.WellNamed (c : Clause) : Prop where
  unary : ∀ k x, .binder k x ∈ c.unary → isTerm x = true
  conjunct : ∀ p ∈ c.conjunct, p.WellNamed
  disjunct : ∀ p ∈ c.disjunct, p.WellNamed
  hypotheses : ∀ p ∈ c.hypotheses, p.WellNamed

def Target.WellNamed : Target → Prop
  | formula => True
  | antecedent done => ∀ p ∈ done, p.WellNamed
  | consequent ant done => (∀ p ∈ ant, p.WellNamed) ∧ ∀ p ∈ done, p.WellNamed

def Focus.WellNamed : Focus → Prop
  | operand => True
  | binding _ => True
  | predicate name => isTerm name = true
  | term name ts => isTerm name = true ∧ ∀ t ∈ ts, isTerm t = true
  | terms name ts => isTerm name = true ∧ ∀ t ∈ ts, isTerm t = true
  | complete p => p.WellNamed

/-- Everything that a reading holds is well-named. -/
structure Reading.WellNamed (r : Reading) : Prop where
  target : r.target.WellNamed
  outer : ∀ c ∈ r.outer, c.WellNamed
  clause : r.clause.WellNamed
  focus : r.focus.WellNamed

namespace Clause

theorem wellNamed_empty : Clause.WellNamed {} := by
  constructor <;> simp

/-- The waiting operations applied to an operand. -/
theorem wellNamed_foldl_apply {us : List Unary} {p : Formula} (hp : p.WellNamed)
    (hus : ∀ k x, .binder k x ∈ us → isTerm x = true) :
    (us.foldl (fun q u => u.apply q) p).WellNamed := by
  induction us generalizing p with
  | nil => exact hp
  | cons u us ih =>
      refine ih ?_ fun k x hx => hus k x (List.mem_cons_of_mem _ hx)
      cases u with
      | negation => exact hp
      | binder k x => exact Formula.wellNamed_quantified.mpr ⟨hus k x List.mem_cons_self, hp⟩

namespace WellNamed

variable {c : Clause} {p : Formula}

/-- A well-named clause and operand make a well-named conjunction. -/
theorem conjunctionWith (hc : c.WellNamed) (hp : p.WellNamed) :
    (c.conjunctionWith p).WellNamed := by
  have hoperand := wellNamed_foldl_apply hp hc.unary
  unfold Clause.conjunctionWith
  split
  · exact hoperand
  · rename_i l hl
    exact Formula.wellNamed_binary.mpr ⟨hc.conjunct l hl, hoperand⟩

theorem disjunctionWith (hc : c.WellNamed) (hp : p.WellNamed) :
    (c.disjunctionWith p).WellNamed := by
  unfold Clause.disjunctionWith
  split
  · exact hc.conjunctionWith hp
  · rename_i l hl
    exact Formula.wellNamed_binary.mpr ⟨hc.disjunct l hl, hc.conjunctionWith hp⟩

/-- A clause is closed to a well-named formula. -/
theorem close (hc : c.WellNamed) (hp : p.WellNamed) : (c.close p).WellNamed := by
  have hfold : ∀ {hs : List Formula} {q : Formula}, (∀ h ∈ hs, h.WellNamed) → q.WellNamed →
      (hs.foldl (fun q h => .binary .conditional h q) q).WellNamed := by
    intro hs
    induction hs with
    | nil => exact fun _ hq => hq
    | cons h hs ih =>
        intro q hhs hq
        rw [List.forall_mem_cons] at hhs
        exact ih hhs.2 (Formula.wellNamed_binary.mpr ⟨hhs.1, hq⟩)
  exact hfold hc.hypotheses (hc.disjunctionWith hp)

/-- An operator keeps a clause well-named. -/
theorem join (hc : c.WellNamed) (hp : p.WellNamed) (op : Operator) :
    (c.join p op).WellNamed := by
  cases op with
  | conjunction =>
      refine ⟨by simp [Clause.join], ?_, hc.disjunct, hc.hypotheses⟩
      rintro _ ⟨⟩
      exact hc.conjunctionWith hp
  | disjunction =>
      refine ⟨by simp [Clause.join], by simp [Clause.join], ?_, hc.hypotheses⟩
      rintro _ ⟨⟩
      exact hc.disjunctionWith hp
  | conditional =>
      refine ⟨by simp [Clause.join], by simp [Clause.join], by simp [Clause.join], ?_⟩
      exact List.forall_mem_cons.mpr ⟨hc.disjunctionWith hp, hc.hypotheses⟩

/-- A unary sign keeps a clause well-named, if its bound name is a term. -/
theorem under {u : Unary} (hc : c.WellNamed)
    (hu : ∀ k x, u = .binder k x → isTerm x = true) : (c.under u).WellNamed := by
  refine ⟨?_, hc.conjunct, hc.disjunct, hc.hypotheses⟩
  intro k x hx
  rcases List.mem_cons.mp hx with heq | hmem
  · exact hu k x heq.symm
  · exact hc.unary k x hmem

end WellNamed

end Clause

namespace Reading

namespace WellNamed

variable {r r' : Reading} {p : Formula} {t : Token}

/-- A step at an operand keeps a reading well-named. -/
theorem stepOperand (hr : r.WellNamed) (ht : t.WellNamed) (h : r.stepOperand t = some r') :
    r'.WellNamed := by
  unfold Reading.stepOperand at h
  split at h
  · cases h
    exact ⟨hr.target, hr.outer, hr.clause, ht⟩
  · cases h
    exact ⟨hr.target, hr.outer, hr.clause.under (fun _ _ hu => nomatch hu), hr.focus⟩
  · cases h
    refine ⟨hr.target, hr.outer, hr.clause.under ?_, hr.focus⟩
    rintro k x ⟨⟩
    exact ht
  · cases h
    exact ⟨hr.target, hr.outer, hr.clause, trivial⟩
  · cases h
    refine ⟨hr.target, ?_, Clause.wellNamed_empty, hr.focus⟩
    exact List.forall_mem_cons.mpr ⟨hr.clause, hr.outer⟩
  · split at h
    · cases h
      exact ⟨by simp [Target.WellNamed], by simp, Clause.wellNamed_empty, trivial⟩
    · cases h
  · cases h

/-- A step behind an operand keeps a reading well-named. -/
theorem stepAfterOperand (hr : r.WellNamed) (hp : p.WellNamed)
    (h : r.stepAfterOperand p t = some r') : r'.WellNamed := by
  -- all but an operator close the clause
  have hclose := hr.clause.close hp
  have htarget := hr.target
  unfold Reading.stepAfterOperand at h
  split at h
  · cases h
    exact ⟨htarget, hr.outer, hr.clause.join hp _, trivial⟩
  · split at h
    · rename_i c cs hcs
      cases h
      have houter := hr.outer
      rw [hcs, List.forall_mem_cons] at houter
      exact ⟨htarget, houter.2, houter.1, hclose⟩
    · cases h
  · split at h
    · rename_i done _ hdone
      cases h
      rw [hdone] at htarget
      exact ⟨List.forall_mem_cons.mpr ⟨hclose, htarget⟩, by simp, Clause.wellNamed_empty, trivial⟩
    · rename_i ant done _ hdone
      cases h
      rw [hdone] at htarget
      exact ⟨⟨htarget.1, List.forall_mem_cons.mpr ⟨hclose, htarget.2⟩⟩, by simp,
        Clause.wellNamed_empty, trivial⟩
    · cases h
  · split at h
    · rename_i done _ hdone
      cases h
      rw [hdone] at htarget
      refine ⟨⟨?_, by simp⟩, by simp, Clause.wellNamed_empty, trivial⟩
      intro q hq
      exact List.forall_mem_cons.mpr ⟨hclose, htarget⟩ q (List.mem_reverse.mp hq)
    · cases h
  · cases h

/-- Every step keeps a reading well-named. -/
theorem step (hr : r.WellNamed) (ht : t.WellNamed) (h : r.step t = some r') : r'.WellNamed := by
  have hfocus := hr.focus
  unfold Reading.step at h
  split at h
  · exact hr.stepOperand ht h
  · cases h
    refine ⟨hr.target, hr.outer, hr.clause.under ?_, trivial⟩
    rintro k x ⟨⟩
    exact ht
  · cases h
  · rename_i name hname
    cases h
    rw [hname] at hfocus
    exact ⟨hr.target, hr.outer, hr.clause, hfocus, by simp⟩
  · rename_i name hname _
    rw [hname] at hfocus
    -- the word before the token was an atom without terms
    have hatom : (Formula.atom ⟨name, []⟩).WellNamed :=
      Formula.wellNamed_atom.mpr ⟨hfocus, by simp⟩
    exact hr.stepAfterOperand hatom h
  · rename_i name ts x hname
    cases h
    rw [hname] at hfocus
    exact ⟨hr.target, hr.outer, hr.clause, hfocus.1, List.forall_mem_cons.mpr ⟨ht, hfocus.2⟩⟩
  · cases h
  · rename_i name ts hname
    cases h
    rw [hname] at hfocus
    exact ⟨hr.target, hr.outer, hr.clause, hfocus⟩
  · rename_i name ts hname
    cases h
    rw [hname] at hfocus
    refine ⟨hr.target, hr.outer, hr.clause, Formula.wellNamed_atom.mpr ⟨hfocus.1, ?_⟩⟩
    exact fun t ht => hfocus.2 t (List.mem_reverse.mp ht)
  · cases h
  · rename_i q _ hq
    rw [hq] at hfocus
    exact hr.stepAfterOperand hfocus h

/-- Well-named tokens keep a reading well-named. -/
theorem feed {ls : List Lexeme} (hls : ∀ l ∈ ls, l.token.WellNamed) (hr : r.WellNamed) :
    (r.feed ls).1.WellNamed := by
  induction ls generalizing r with
  | nil => exact hr
  | cons l ls ih =>
      rw [List.forall_mem_cons] at hls
      rw [Reading.feed]
      split
      · rename_i r' hstep
        exact ih hls.2 (hr.step hls.1 hstep)
      · exact hr

/-- A finished operand is well-named. -/
theorem operand? (hr : r.WellNamed) (h : r.operand? = some p) : p.WellNamed := by
  have hfocus := hr.focus
  unfold Reading.operand? at h
  split at h
  · rename_i name _ hname
    cases h
    rw [hname] at hfocus
    exact hr.clause.close (Formula.wellNamed_atom.mpr ⟨hfocus, by simp⟩)
  · rename_i q _ hq
    cases h
    rw [hq] at hfocus
    exact hr.clause.close hfocus
  · cases h

theorem formula? (hr : r.WellNamed) (h : r.formula? = some p) : p.WellNamed := by
  unfold Reading.formula? at h
  split at h
  · exact hr.operand? h
  · cases h

/-- The sequent that has been read is well-named. -/
theorem sequent? {s : Sequent} (hr : r.WellNamed) (h : r.sequent? = some s) : s.WellNamed := by
  have htarget := hr.target
  unfold Reading.sequent? at h
  split at h
  · rename_i ant done hdone
    rw [hdone] at htarget
    split at h
    · cases h
      exact List.forall_mem_append.mpr ⟨htarget.1, by simp⟩
    · obtain ⟨p, hp, heq⟩ := Option.map_eq_some_iff.mp h
      cases heq
      refine List.forall_mem_append.mpr ⟨htarget.1, ?_⟩
      intro q hq
      exact List.forall_mem_cons.mpr ⟨hr.operand? hp, htarget.2⟩ q (List.mem_reverse.mp hq)
  · cases h

end WellNamed

theorem wellNamed_ofFormula : ofFormula.WellNamed :=
  ⟨trivial, by simp [ofFormula], Clause.wellNamed_empty, trivial⟩

theorem wellNamed_ofSequent : ofSequent.WellNamed :=
  ⟨by simp [ofSequent, Target.WellNamed], by simp [ofSequent], Clause.wellNamed_empty, trivial⟩

end Reading

/-! ## Reading all tokens -/

namespace Reading

/-- The reading after all tokens, if there is no dead end. -/
def readAll (r : Reading) (ts : List Token) : Option Reading := ts.foldlM step r

variable {r r' r'' : Reading} {t : Token} {ts us : List Token}

theorem readAll_cons (h : r.step t = some r') : r.readAll (t :: ts) = r'.readAll ts := by
  rw [readAll, List.foldlM_cons, h]
  rfl

/-- Tokens in a row are read one after the other. -/
theorem readAll_append (h : r.readAll ts = some r') : r.readAll (ts ++ us) = r'.readAll us := by
  rw [readAll, List.foldlM_append, ← readAll, h]
  rfl

theorem readAll_cons_eq_some_iff :
    r.readAll (t :: ts) = some r' ↔ ∃ r₁, r.step t = some r₁ ∧ r₁.readAll ts = some r' := by
  rw [readAll, List.foldlM_cons]
  exact Option.bind_eq_some_iff

/-- Nothing is left over exactly if all tokens are read. -/
theorem feed_eq_iff {ls : List Lexeme} :
    r.feed ls = (r', []) ↔ r.readAll (ls.map Lexeme.token) = some r' := by
  induction ls generalizing r with
  | nil => simp [feed, readAll]
  | cons l ls ih =>
      rw [List.map_cons, readAll_cons_eq_some_iff, feed]
      cases hstep : r.step l.token with
      | none => simp
      | some r₁ => simp [ih]

/-- Reading succeeds if there is no dead end and the tokens may end. -/
theorem complete_eq_ok_iff {α : Type} {result : Reading → Option α} {size : Nat}
    {ls : List Lexeme} {a : α} :
    r.complete result size ls = .ok a ↔
      ∃ r', r.readAll (ls.map Lexeme.token) = some r' ∧ result r' = some a := by
  simp only [← feed_eq_iff, complete]
  constructor
  · intro h
    split at h
    · rename_i r' hfeed
      split at h
      · rename_i b hb
        cases h
        exact ⟨r', hfeed, hb⟩
      · cases h
    · cases h
  · rintro ⟨r', hfeed, ha⟩
    rw [hfeed]
    simp only [ha]

/-- Two readings go on in the same way with the tokens that may follow, and end
    in the same way. -/
structure Agrees (follow : Token → Prop) (r r' : Reading) : Prop where
  step : ∀ t, follow t → r.step t = r'.step t
  formula? : r.formula? = r'.formula?
  sequent? : r.sequent? = r'.sequent?

theorem Agrees.trans {follow : Token → Prop} (h : Agrees follow r r')
    (h' : Agrees follow r' r'') : Agrees follow r r'' where
  step t ht := (h.step t ht).trans (h'.step t ht)
  formula? := h.formula?.trans h'.formula?
  sequent? := h.sequent?.trans h'.sequent?

/-- Readings that agree before some tokens agree before fewer. -/
theorem Agrees.mono {follow follow' : Token → Prop} (h : Agrees follow r r')
    (hfollow : ∀ t, follow' t → follow t) : Agrees follow' r r' where
  step t ht := h.step t (hfollow t ht)
  formula? := h.formula?
  sequent? := h.sequent?

/-- The reading with a complete operand where one was to come. -/
def filled (r : Reading) (p : Formula) : Reading := { r with focus := .complete p }

/-- What may stand behind an operand does not begin a list of terms. -/
def EndsOperand (t : Token) : Prop := t ≠ .leftAngle

theorem atListStart_filled (r : Reading) (p : Formula) : (r.filled p).atListStart = false := by
  simp [atListStart, filled]

/-- Readings with the same target agree at the end of the tokens if they have
    the same operand and stand at the beginning of no list. -/
theorem Agrees.of_operand? {follow : Token → Prop}
    (hstep : ∀ t, follow t → r.step t = r'.step t) (htarget : r.target = r'.target)
    (hstart : r.atListStart = false) (hstart' : r'.atListStart = false)
    (hoperand : r.operand? = r'.operand?) : Agrees follow r r' where
  step := hstep
  formula? := by
    unfold Reading.formula?
    rw [htarget, hoperand]
  sequent? := by
    unfold Reading.sequent?
    rw [htarget, hoperand, hstart, hstart']

/-- A predicate without terms is complete as it stands. -/
theorem agrees_predicate (r : Reading) (name : String) :
    Agrees EndsOperand { r with focus := .predicate name } (r.filled (.atom ⟨name, []⟩)) := by
  refine Agrees.of_operand? ?_ rfl (by simp [atListStart]) (atListStart_filled _ _) ?_
  · intro t ht
    cases t with
    | leftAngle => exact absurd rfl ht
    | _ => rfl
  · obtain ⟨target, outer, clause, focus⟩ := r
    cases outer <;> rfl

/-- An operation in the clause may as well be applied to the operand. -/
theorem agrees_under (r : Reading) (u : Unary) (p : Formula) :
    Agrees EndsOperand (filled { r with clause := r.clause.under u } p)
      (r.filled (u.apply p)) := by
  refine Agrees.of_operand? ?_ rfl (atListStart_filled _ _) (atListStart_filled _ _) ?_
  · intro t _
    cases t with
    | operator op => cases op <;> rfl
    | _ => rfl
  · obtain ⟨target, outer, clause, focus⟩ := r
    cases outer <;> rfl

end Reading

/-- A text is read if its tokens are. -/
theorem readText_eq_ok_iff {α : Type} {start : Reading} {result : Reading → Option α}
    {source : String} {a : α} :
    readText start result source = .ok a ↔
      ∃ ls r, lex source.toList = .ok ls ∧ start.readAll (ls.map Lexeme.token) = some r ∧
        result r = some a := by
  rw [readText]
  cases hlex : lex source.toList with
  | error d => simp
  | ok ls =>
      constructor
      · intro h
        simp only at h
        split at h
        · rename_i b hcomplete
          cases h
          obtain ⟨r, hread, hresult⟩ := Reading.complete_eq_ok_iff.mp hcomplete
          exact ⟨ls, r, rfl, hread, hresult⟩
        · cases h
      · rintro ⟨_, r, ⟨⟩, hread, hresult⟩
        have hcomplete : start.complete result source.utf8ByteSize ls = .ok a :=
          Reading.complete_eq_ok_iff.mpr ⟨r, hread, hresult⟩
        simp only [hcomplete]

end SequentCalculus
