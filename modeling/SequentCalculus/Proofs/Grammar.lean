import Mathlib.Data.List.Forall2
import SequentCalculus.Proofs.Reading

/-! # The grammar of formulas and sequents

    Connectives bind in levels, and `Derives` says which tokens form which
    formula at each level: conditionals group to the right, disjunctions and
    conjunctions to the left, and negations and quantifiers stand before an
    atom or a pair of parentheses.

    Reading accepts exactly what the grammar derives, with the same result.
    Whatever is derived is read, wherever a formula of its level is to come
    (`Derives.completes`).  Conversely the tokens read so far can at any time be
    divided among the parts of a reading, each of which the grammar derives
    (`Reading.Spells`); so at the end they derive the result.

    Hence the grammar is unambiguous: reading is a function. -/

namespace SequentCalculus

/-! ## Derivations -/

/-- The levels of the grammar, from the loosest connective down. -/
inductive Precedence
  | formula
  | disjunction
  | conjunction
  | unary
  | primary
  deriving DecidableEq, Repr

/-- The items in a row, a comma between each two. -/
def Token.commaSeparated : List (List Token) → List Token
  | [] => []
  | [ts] => ts
  | ts :: us :: rest => ts ++ .comma :: Token.commaSeparated (us :: rest)

/-- The tokens form the formula at the level. -/
inductive Derives : Precedence → List Token → Formula → Prop
  | ofDisjunction {ts : List Token} {p : Formula} (h : Derives .disjunction ts p) :
      Derives .formula ts p
  | conditional {ts us : List Token} {p q : Formula} (hp : Derives .disjunction ts p)
      (hq : Derives .formula us q) :
      Derives .formula (ts ++ .operator .conditional :: us) (.binary .conditional p q)
  | ofConjunction {ts : List Token} {p : Formula} (h : Derives .conjunction ts p) :
      Derives .disjunction ts p
  | disjunction {ts us : List Token} {p q : Formula} (hp : Derives .disjunction ts p)
      (hq : Derives .conjunction us q) :
      Derives .disjunction (ts ++ .operator .disjunction :: us) (.binary .disjunction p q)
  | ofUnary {ts : List Token} {p : Formula} (h : Derives .unary ts p) :
      Derives .conjunction ts p
  | conjunction {ts us : List Token} {p q : Formula} (hp : Derives .conjunction ts p)
      (hq : Derives .unary us q) :
      Derives .conjunction (ts ++ .operator .conjunction :: us) (.binary .conjunction p q)
  | ofPrimary {ts : List Token} {p : Formula} (h : Derives .primary ts p) :
      Derives .unary ts p
  | negation {ts : List Token} {p : Formula} (h : Derives .unary ts p) :
      Derives .unary (.negation :: ts) (.negation p)
  | glued {ts : List Token} {p : Formula} (k : Quantifier) (x : String)
      (h : Derives .unary ts p) : Derives .unary (.binder k x :: ts) (.quantified k x p)
  | quantified {ts : List Token} {p : Formula} (k : Quantifier) (x : String)
      (h : Derives .unary ts p) :
      Derives .unary (.quantifier k :: .word x :: ts) (.quantified k x p)
  | predicate (name : String) : Derives .primary [.word name] (.atom ⟨name, []⟩)
  | application (name : String) {ts : List String} (h : ts ≠ []) :
      Derives .primary
        (.word name :: .leftAngle :: Token.commaSeparated (ts.map fun t => [.word t]) ++
          [.rightAngle])
        (.atom ⟨name, ts⟩)
  | parentheses {ts : List Token} {p : Formula} (h : Derives .formula ts p) :
      Derives .primary (.leftParen :: ts ++ [.rightParen]) p

/-- The tokens form the formulas, with a comma between each two. -/
def DerivesList (ts : List Token) (ps : List Formula) : Prop :=
  ∃ tss, List.Forall₂ (Derives .formula) tss ps ∧ ts = Token.commaSeparated tss

/-- The tokens form the sequent: two lists, either of which may be empty, and a
    semicolon between them. -/
def Sequent.Derives (ts : List Token) (s : Sequent) : Prop :=
  ∃ us vs, DerivesList us s.antecedent ∧ DerivesList vs s.consequent ∧
    ts = us ++ .semicolon :: vs

/-! ## What is derived is read -/

namespace Precedence

/-- What may stand behind a formula of the level without going on with it. -/
def Ends : Precedence → Token → Prop
  | formula, t => t ≠ .leftAngle ∧ ∀ op, t ≠ .operator op
  | disjunction, t => t ≠ .leftAngle ∧ t ≠ .operator .conjunction
  | conjunction, t => t ≠ .leftAngle
  | unary, t => t ≠ .leftAngle
  | primary, t => t ≠ .leftAngle

/-- No operand of a tighter connective is waiting, so that a formula of the
    level may come. -/
def Awaits : Precedence → Clause → Prop
  | formula, c => c.unary = [] ∧ c.conjunct = none ∧ c.disjunct = none
  | disjunction, c => c.unary = [] ∧ c.conjunct = none ∧ c.disjunct = none
  | conjunction, c => c.unary = [] ∧ c.conjunct = none
  | unary, _ => True
  | primary, _ => True

end Precedence

/-- The level at which a connective joins its operands. -/
def Operator.precedence : Operator → Precedence
  | conjunction => .conjunction
  | disjunction => .disjunction
  | conditional => .formula

namespace Reading

/-- Wherever a formula of the level is to come, reading the tokens completes
    it. -/
def Completes (l : Precedence) (ts : List Token) (p : Formula) : Prop :=
  ∀ r : Reading, r.focus = .operand → l.Awaits r.clause →
    ∃ r', r.readAll ts = some r' ∧ Agrees l.Ends r' (r.filled p)

variable {ts us : List Token} {p q : Formula} {l l' : Precedence}

/-- A formula is complete at a level if it is so at a tighter one. -/
theorem Completes.loosen (h : Completes l ts p) (hawaits : ∀ c, l'.Awaits c → l.Awaits c)
    (hends : ∀ t, l'.Ends t → l.Ends t) : Completes l' ts p := by
  intro r hr hc
  obtain ⟨r', hread, hagree⟩ := h r hr (hawaits _ hc)
  exact ⟨r', hread, hagree.mono hends⟩

/-- A connective whose left operand waits in the clause may as well be applied
    to both operands, before anything that ends its level. -/
theorem agrees_join (r : Reading) (p q : Formula) (op : Operator)
    (h : op.precedence.Awaits r.clause) :
    Agrees op.precedence.Ends (filled { r with clause := r.clause.join p op } q)
      (r.filled (.binary op p q)) := by
  obtain ⟨target, outer, ⟨unary, conjunct, disjunct, hypotheses⟩, focus⟩ := r
  refine Agrees.of_operand? ?_ rfl (atListStart_filled _ _) (atListStart_filled _ _) ?_
  · intro t ht
    cases op with
    | conjunction =>
        obtain ⟨rfl, rfl⟩ := h
        cases t with
        | operator op' => cases op' <;> rfl
        | _ => rfl
    | disjunction =>
        -- a conjunction would bind the right operand more tightly, but none follows
        obtain ⟨rfl, rfl, rfl⟩ := h
        cases t with
        | operator op' =>
            cases op' with
            | conjunction => exact absurd rfl ht.2
            | _ => rfl
        | _ => rfl
    | conditional =>
        -- no operator at all follows a conditional
        obtain ⟨rfl, rfl, rfl⟩ := h
        cases t with
        | operator op' => exact absurd rfl (ht.2 op')
        | _ => rfl
  · cases op with
    | conjunction =>
        obtain ⟨rfl, rfl⟩ := h
        cases outer <;> rfl
    | _ =>
        obtain ⟨rfl, rfl, rfl⟩ := h
        cases outer <;> rfl

/-- Two operands around a connective. -/
theorem Completes.join (hp : Completes l ts p) (hq : Completes l' us q) (op : Operator)
    (hleft : ∀ c, op.precedence.Awaits c → l.Awaits c) (hop : l.Ends (.operator op))
    (hright : ∀ c p, op.precedence.Awaits c → l'.Awaits (c.join p op))
    (hends : ∀ t, op.precedence.Ends t → l'.Ends t) :
    Completes op.precedence (ts ++ .operator op :: us) (.binary op p q) := by
  intro r hr hc
  obtain ⟨r₁, hread₁, hagree₁⟩ := hp r hr (hleft _ hc)
  have hstep : r₁.step (.operator op) = some { r with clause := r.clause.join p op } := by
    rw [hagree₁.step _ hop]
    obtain ⟨target, outer, clause, _⟩ := r
    cases hr
    rfl
  obtain ⟨r₂, hread₂, hagree₂⟩ := hq { r with clause := r.clause.join p op } hr (hright _ p hc)
  refine ⟨r₂, ?_, (hagree₂.mono hends).trans (agrees_join r p q op hc)⟩
  rw [readAll_append hread₁, readAll_cons hstep]
  exact hread₂

/-- An operation and its operand. -/
theorem Completes.under (h : Completes .unary ts p) (us : List Token) (u : Unary)
    (hus : ∀ r : Reading, r.focus = .operand →
      r.readAll us = some { r with clause := r.clause.under u }) :
    Completes .unary (us ++ ts) (u.apply p) := by
  intro r hr _
  obtain ⟨r', hread, hagree⟩ := h { r with clause := r.clause.under u } hr trivial
  refine ⟨r', ?_, hagree.trans (agrees_under r u p)⟩
  rw [readAll_append (hus r hr)]
  exact hread

theorem completes_predicate (name : String) :
    Completes .primary [.word name] (.atom ⟨name, []⟩) := by
  rintro ⟨target, outer, clause, _⟩ ⟨⟩ _
  exact ⟨_, rfl, agrees_predicate ⟨target, outer, clause, .operand⟩ name⟩

/-- The terms between the brackets of an atom. -/
theorem readAll_terms (r : Reading) (name t : String) (ts done : List String) :
    readAll { r with focus := .term name done }
        (Token.commaSeparated ((t :: ts).map fun t => [.word t])) =
      some { r with focus := .terms name ((t :: ts).reverse ++ done) } := by
  induction ts generalizing t done with
  | nil => rfl
  | cons u us ih =>
      show readAll { r with focus := .term name (t :: done) }
        (Token.commaSeparated ((u :: us).map fun t => [.word t])) = _
      rw [ih]
      simp only [List.reverse_cons, List.append_assoc, List.cons_append, List.nil_append]

/-- A word with terms in angle brackets completes an atom. -/
theorem completes_application (name : String) {ts : List String} (h : ts ≠ []) :
    Completes .primary
      (.word name :: .leftAngle :: Token.commaSeparated (ts.map fun t => [.word t]) ++
        [.rightAngle])
      (.atom ⟨name, ts⟩) := by
  rintro ⟨target, outer, clause, _⟩ ⟨⟩ _
  obtain ⟨t, ts, rfl⟩ := List.exists_cons_of_ne_nil h
  refine ⟨⟨target, outer, clause, .complete (.atom ⟨name, t :: ts⟩)⟩, ?_,
    ⟨fun _ _ => rfl, rfl, rfl⟩⟩
  have hterms := readAll_terms ⟨target, outer, clause, .operand⟩ name t ts []
  show readAll ⟨target, outer, clause, .term name []⟩
    (Token.commaSeparated ((t :: ts).map fun t => [.word t]) ++ [.rightAngle]) = _
  rw [readAll_append hterms, List.append_nil]
  show some (⟨target, outer, clause, .complete (.atom ⟨name, (t :: ts).reverse.reverse⟩)⟩ :
    Reading) = _
  rw [List.reverse_reverse]

/-- Parentheses around what completes a formula complete an operand. -/
theorem Completes.parentheses (h : Completes .formula ts p) :
    Completes .primary (.leftParen :: ts ++ [.rightParen]) p := by
  rintro ⟨target, outer, clause, _⟩ ⟨⟩ _
  -- a new clause begins, which the right parenthesis closes
  obtain ⟨r', hread, hagree⟩ := h ⟨target, clause :: outer, {}, .operand⟩ rfl ⟨rfl, rfl, rfl⟩
  have hclose : r'.step .rightParen = some ⟨target, outer, clause, .complete p⟩ := by
    rw [hagree.step .rightParen (by simp [Precedence.Ends])]
    rfl
  refine ⟨⟨target, outer, clause, .complete p⟩, ?_, ⟨fun _ _ => rfl, rfl, rfl⟩⟩
  show readAll ⟨target, clause :: outer, {}, .operand⟩ (ts ++ [.rightParen]) = _
  rw [readAll_append hread, readAll_cons hclose]
  rfl

end Reading

/-- Whatever is derived at a level is read where a formula of the level is to
    come. -/
theorem Derives.completes {l : Precedence} {ts : List Token} {p : Formula} (h : Derives l ts p) :
    Reading.Completes l ts p := by
  induction h with
  | ofDisjunction _ ih => exact ih.loosen (fun _ hc => hc) fun _ ht => ⟨ht.1, ht.2 _⟩
  | conditional _ _ ihp ihq =>
      refine ihp.join ihq .conditional (fun _ hc => hc) ?_ ?_ (fun _ ht => ht)
      · exact ⟨by simp, by simp⟩
      · intro c p _
        exact ⟨rfl, rfl, rfl⟩
  | ofConjunction _ ih => exact ih.loosen (fun _ hc => ⟨hc.1, hc.2.1⟩) fun _ ht => ht.1
  | disjunction _ _ ihp ihq =>
      refine ihp.join ihq .disjunction (fun _ hc => hc) ?_ ?_ (fun _ ht => ht.1)
      · exact ⟨by simp, by simp⟩
      · intro c p _
        exact ⟨rfl, rfl⟩
  | ofUnary _ ih => exact ih.loosen (fun _ _ => trivial) fun _ ht => ht
  | conjunction _ _ ihp ihq =>
      refine ihp.join ihq .conjunction (fun _ hc => hc) ?_ ?_ (fun _ ht => ht)
      · simp [Precedence.Ends]
      · intro c p _
        trivial
  | ofPrimary _ ih => exact ih.loosen (fun _ _ => trivial) fun _ ht => ht
  | negation _ ih =>
      refine ih.under [.negation] .negation ?_
      rintro ⟨target, outer, clause, _⟩ ⟨⟩
      rfl
  | glued k x _ ih =>
      refine ih.under [.binder k x] (.binder k x) ?_
      rintro ⟨target, outer, clause, _⟩ ⟨⟩
      rfl
  | quantified k x _ ih =>
      refine ih.under [.quantifier k, .word x] (.binder k x) ?_
      rintro ⟨target, outer, clause, _⟩ ⟨⟩
      rfl
  | predicate name => exact Reading.completes_predicate name
  | application name h => exact Reading.completes_application name h
  | parentheses _ ih => exact ih.parentheses

namespace Reading

/-- The members of a list are gathered, the last first, and the last of them is
    complete. -/
theorem readAll_members (target : List Formula → Target)
    (hcomma : ∀ done p, step { target := target done, focus := .complete p } .comma =
      some { target := target (p :: done) })
    {ts : List Token} {tss : List (List Token)} {p : Formula} {ps : List Formula}
    (h : List.Forall₂ (Derives .formula) (ts :: tss) (p :: ps)) (done : List Formula) :
    ∃ r' q qs, readAll { target := target done } (Token.commaSeparated (ts :: tss)) = some r' ∧
      Agrees Precedence.formula.Ends r' { target := target qs, focus := .complete q } ∧
      (q :: qs).reverse = done.reverse ++ p :: ps := by
  induction tss generalizing ts p ps done with
  | nil =>
      obtain ⟨hp, hps⟩ := List.forall₂_cons.mp h
      obtain rfl := List.forall₂_nil_left_iff.mp hps
      obtain ⟨r', hread, hagree⟩ := hp.completes { target := target done } rfl ⟨rfl, rfl, rfl⟩
      exact ⟨r', p, done, hread, hagree, List.reverse_cons⟩
  | cons us tss ih =>
      obtain ⟨hp, hps⟩ := List.forall₂_cons.mp h
      obtain ⟨p', ps', -, -, rfl⟩ := List.forall₂_cons_left_iff.mp hps
      obtain ⟨r₁, hread₁, hagree₁⟩ := hp.completes { target := target done } rfl ⟨rfl, rfl, rfl⟩
      -- what has been read agrees with the finished member as far as a comma goes
      have hstep : r₁.step .comma = some { target := target (p :: done) } :=
        (hagree₁.step .comma (by simp [Precedence.Ends])).trans (hcomma done p)
      obtain ⟨r', q, qs, hread, hagree, heq⟩ := ih hps (p :: done)
      refine ⟨r', q, qs, ?_, hagree, by simpa using heq⟩
      show readAll _ (ts ++ .comma :: Token.commaSeparated (us :: tss)) = _
      rw [readAll_append hread₁, readAll_cons hstep]
      exact hread

end Reading

/-- Whatever is derived as a sequent is read as that sequent. -/
theorem Sequent.Derives.readAll {ts : List Token} {s : Sequent} (h : s.Derives ts) :
    ∃ r, Reading.ofSequent.readAll ts = some r ∧ r.sequent? = some s := by
  obtain ⟨ant, con⟩ := s
  obtain ⟨us, vs, ⟨uss, hant, rfl⟩, ⟨vss, hcon, rfl⟩, rfl⟩ := h
  -- up to the semicolon, where the antecedent is complete
  have hsemicolon : Reading.ofSequent.readAll (Token.commaSeparated uss ++ [.semicolon]) =
      some { target := .consequent ant [] } := by
    cases hant with
    | nil => rfl
    | cons hp hps =>
        obtain ⟨r, q, qs, hread, hagree, heq⟩ :=
          Reading.readAll_members .antecedent (fun _ _ => rfl) (.cons hp hps) []
        have hstep := hagree.step .semicolon (by simp [Precedence.Ends])
        rw [Reading.ofSequent, Reading.readAll_append hread, Reading.readAll_cons hstep]
        show some ({ target := .consequent (q :: qs).reverse [] } : Reading) = _
        rw [heq]
        rfl
  rw [List.append_cons, Reading.readAll_append hsemicolon]
  cases hcon with
  | nil => exact ⟨_, rfl, rfl⟩
  | cons hp hps =>
      obtain ⟨r, q, qs, hread, hagree, heq⟩ :=
        Reading.readAll_members (.consequent ant) (fun _ _ => rfl) (.cons hp hps) []
      refine ⟨r, hread, ?_⟩
      rw [hagree.sequent?]
      show some (⟨ant, (q :: qs).reverse⟩ : Sequent) = _
      rw [heq]
      rfl

/-! ## What is read is derived -/

/-- Items, the last first, with a comma behind each. -/
inductive Listed {α : Type} (R : List Token → α → Prop) : List Token → List α → Prop
  | nil : Listed R [] []
  | cons {ts us : List Token} {a : α} {as : List α} (h : Listed R ts as) (ha : R us a) :
      Listed R (ts ++ us ++ [.comma]) (a :: as)

theorem Token.commaSeparated_concat {tss : List (List Token)} (h : tss ≠ [])
    (us : List Token) :
    Token.commaSeparated (tss ++ [us]) = Token.commaSeparated tss ++ .comma :: us := by
  induction tss with
  | nil => exact absurd rfl h
  | cons ts tss ih =>
      cases tss with
      | nil => rfl
      | cons ts' tss =>
          show ts ++ .comma :: Token.commaSeparated (ts' :: tss ++ [us]) = _
          rw [ih (List.cons_ne_nil _ _)]
          simp [Token.commaSeparated]

/-- With one more item the list is complete. -/
theorem Listed.separated {α : Type} {R : List Token → α → Prop} {ts : List Token} {as : List α}
    (h : Listed R ts as) {us : List Token} {a : α} (ha : R us a) :
    ∃ tss, List.Forall₂ R tss (a :: as).reverse ∧ ts ++ us = Token.commaSeparated tss := by
  induction h generalizing us a with
  | nil => exact ⟨[us], .cons ha .nil, rfl⟩
  | cons _ hb ih =>
      obtain ⟨tss, htss, heq⟩ := ih hb
      have hne : tss ≠ [] := by
        rintro rfl
        simp at htss
      refine ⟨tss ++ [us], ?_, ?_⟩
      · rw [List.reverse_cons]
        exact List.rel_append htss (.cons ha .nil)
      · rw [Token.commaSeparated_concat hne, ← heq]
        simp

/-- With one more term the atom is complete. -/
theorem Listed.application {us : List Token} {xs : List String}
    (h : Listed (fun vs x => vs = [.word x]) us xs) (name x : String) :
    Derives .primary (.word name :: .leftAngle :: (us ++ [.word x]) ++ [.rightAngle])
      (.atom ⟨name, (x :: xs).reverse⟩) := by
  obtain ⟨tss, htss, heq⟩ := h.separated (a := x) rfl
  have hmap : List.Forall₂ Eq tss ((x :: xs).reverse.map fun x => [Token.word x]) :=
    List.forall₂_map_right_iff.mpr htss
  rw [List.forall₂_eq_eq_eq] at hmap
  rw [heq, hmap]
  exact .application name (by simp)

/-- Operations, the nearest first, and the tokens they stand for. -/
inductive SpellsUnary : List Token → List Unary → Prop
  | nil : SpellsUnary [] []
  | negation {ts : List Token} {us : List Unary} (h : SpellsUnary ts us) :
      SpellsUnary (ts ++ [.negation]) (.negation :: us)
  | glued {ts : List Token} {us : List Unary} (k : Quantifier) (x : String)
      (h : SpellsUnary ts us) : SpellsUnary (ts ++ [.binder k x]) (.binder k x :: us)
  | quantified {ts : List Token} {us : List Unary} (k : Quantifier) (x : String)
      (h : SpellsUnary ts us) :
      SpellsUnary (ts ++ [.quantifier k, .word x]) (.binder k x :: us)

/-- Unary signs that have been read derive the formula with all of them applied, the
    last one first. -/
theorem SpellsUnary.derives {ts : List Token} {us : List Unary} (h : SpellsUnary ts us)
    {vs : List Token} {p : Formula} (hp : Derives .unary vs p) :
    Derives .unary (ts ++ vs) (us.foldl (fun q u => u.apply q) p) := by
  induction h generalizing vs p with
  | nil => exact hp
  | negation _ ih =>
      rw [List.append_assoc]
      exact ih hp.negation
  | glued k x _ ih =>
      rw [List.append_assoc]
      exact ih (hp.glued k x)
  | quantified k x _ ih =>
      rw [List.append_assoc]
      exact ih (hp.quantified k x)

/-- The left operand of a connective, if there is one, and the tokens up to the
    connective. -/
def SpellsOperand (l : Precedence) (op : Operator) (ts : List Token) : Option Formula → Prop
  | none => ts = []
  | some p => ∃ us, Derives l us p ∧ ts = us ++ [.operator op]

/-- Hypotheses, the nearest first, and the tokens up to the last `->`. -/
inductive SpellsHypotheses : List Token → List Formula → Prop
  | nil : SpellsHypotheses [] []
  | cons {ts us : List Token} {p : Formula} {ps : List Formula} (h : SpellsHypotheses ts ps)
      (hp : Derives .disjunction us p) :
      SpellsHypotheses (ts ++ us ++ [.operator .conditional]) (p :: ps)

/-- Hypotheses that have been read derive the conditionals from all of them, the last
    one innermost. -/
theorem SpellsHypotheses.derives {ts : List Token} {ps : List Formula}
    (h : SpellsHypotheses ts ps) {us : List Token} {q : Formula} (hq : Derives .formula us q) :
    Derives .formula (ts ++ us) (ps.foldl (fun q p => .binary .conditional p q) q) := by
  induction h generalizing us q with
  | nil => exact hq
  | cons _ hp ih =>
      rw [List.append_assoc, List.append_assoc]
      exact ih (hp.conditional hq)

namespace Clause

/-- The tokens that stand for each slot of a clause. -/
structure Spelled (c : Clause) (hs ds cs us : List Token) : Prop where
  hypotheses : SpellsHypotheses hs c.hypotheses
  disjunct : SpellsOperand .disjunction .disjunction ds c.disjunct
  conjunct : SpellsOperand .conjunction .conjunction cs c.conjunct
  unary : SpellsUnary us c.unary

/-- The tokens stand for the clause, the loosest slot first. -/
def Spells (ts : List Token) (c : Clause) : Prop :=
  ∃ hs ds cs us, c.Spelled hs ds cs us ∧ ts = hs ++ (ds ++ (cs ++ us))

variable {c : Clause} {hs ds cs us ts vs : List Token} {p : Formula}

theorem spells_empty : Clause.Spells [] {} :=
  ⟨[], [], [], [], ⟨.nil, rfl, rfl, .nil⟩, rfl⟩

theorem eq_nil_of_spells_empty (h : Clause.Spells ts {}) : ts = [] := by
  obtain ⟨hs, ds, cs, us, ⟨hhypotheses, hdisjunct, hconjunct, hunary⟩, rfl⟩ := h
  obtain rfl : ds = [] := hdisjunct
  obtain rfl : cs = [] := hconjunct
  cases hhypotheses
  cases hunary
  rfl

/-- A clause with one more operand derives the conjunction it is about to close. -/
theorem Spelled.conjunctionWith (h : c.Spelled hs ds cs us) (hp : Derives .primary vs p) :
    Derives .conjunction (cs ++ (us ++ vs)) (c.conjunctionWith p) := by
  have hoperand := h.unary.derives hp.ofPrimary
  have hconjunct := h.conjunct
  unfold Clause.conjunctionWith
  cases hc : c.conjunct with
  | none =>
      rw [hc] at hconjunct
      obtain rfl : cs = [] := hconjunct
      exact hoperand.ofUnary
  | some l =>
      rw [hc] at hconjunct
      obtain ⟨ls, hl, rfl⟩ := hconjunct
      rw [List.append_assoc]
      exact hl.conjunction hoperand

/-- A clause with one more operand derives the disjunction it is about to close. -/
theorem Spelled.disjunctionWith (h : c.Spelled hs ds cs us) (hp : Derives .primary vs p) :
    Derives .disjunction (ds ++ (cs ++ (us ++ vs))) (c.disjunctionWith p) := by
  have hconjunction := h.conjunctionWith hp
  have hdisjunct := h.disjunct
  unfold Clause.disjunctionWith
  cases hd : c.disjunct with
  | none =>
      rw [hd] at hdisjunct
      obtain rfl : ds = [] := hdisjunct
      exact hconjunction.ofConjunction
  | some l =>
      rw [hd] at hdisjunct
      obtain ⟨ls, hl, rfl⟩ := hdisjunct
      rw [List.append_assoc]
      exact hl.disjunction hconjunction

/-- With its last operand the clause is a formula. -/
theorem Spells.close (h : c.Spells ts) (hp : Derives .primary vs p) :
    Derives .formula (ts ++ vs) (c.close p) := by
  obtain ⟨hs, ds, cs, us, hc, rfl⟩ := h
  have hformula := hc.hypotheses.derives (hc.disjunctionWith hp).ofDisjunction
  simpa only [List.append_assoc, Clause.close] using hformula

/-- A connective moves what it joins into the slot of its level. -/
theorem Spells.join (h : c.Spells ts) (hp : Derives .primary vs p) (op : Operator) :
    (c.join p op).Spells (ts ++ vs ++ [.operator op]) := by
  obtain ⟨hs, ds, cs, us, hc, rfl⟩ := h
  cases op with
  | conjunction =>
      refine ⟨hs, ds, _, [],
        ⟨hc.hypotheses, hc.disjunct, ⟨_, hc.conjunctionWith hp, rfl⟩, .nil⟩, ?_⟩
      simp
  | disjunction =>
      refine ⟨hs, _, [], [], ⟨hc.hypotheses, ⟨_, hc.disjunctionWith hp, rfl⟩, rfl, .nil⟩, ?_⟩
      simp
  | conditional =>
      refine ⟨_, [], [], [], ⟨hc.hypotheses.cons (hc.disjunctionWith hp), rfl, rfl, .nil⟩, ?_⟩
      simp

/-- An operation is put before the operand to come. -/
theorem Spells.under (h : c.Spells ts) {u : Unary}
    (hu : ∀ {us ns}, SpellsUnary us ns → SpellsUnary (us ++ vs) (u :: ns)) :
    (c.under u).Spells (ts ++ vs) := by
  obtain ⟨hs, ds, cs, us, hc, rfl⟩ := h
  refine ⟨hs, ds, cs, us ++ vs, ⟨hc.hypotheses, hc.disjunct, hc.conjunct, hu hc.unary⟩, ?_⟩
  simp

end Clause

/-- The clauses around the open parentheses, the innermost first, and the tokens
    up to the last parenthesis. -/
inductive SpellsOuter : List Token → List Clause → Prop
  | nil : SpellsOuter [] []
  | cons {ts us : List Token} {c : Clause} {cs : List Clause} (h : SpellsOuter ts cs)
      (hc : c.Spells us) : SpellsOuter (ts ++ us ++ [.leftParen]) (c :: cs)

/-- The tokens of the members that are complete. -/
def Target.Spells (ts : List Token) : Target → Prop
  | formula => ts = []
  | antecedent done => Listed (Derives .formula) ts done
  | consequent ant done =>
      ∃ us vs, DerivesList us ant ∧ Listed (Derives .formula) vs done ∧ ts = us ++ .semicolon :: vs

/-- The tokens of the operand that is being read. -/
def Focus.Spells (ts : List Token) : Focus → Prop
  | operand => ts = []
  | binding k => ts = [.quantifier k]
  | predicate name => ts = [.word name]
  | term name xs =>
      ∃ us, Listed (fun vs x => vs = [.word x]) us xs ∧ ts = .word name :: .leftAngle :: us
  | terms name xs =>
      ∃ us y ys, Listed (fun vs x => vs = [.word x]) us ys ∧ xs = y :: ys ∧
        ts = .word name :: .leftAngle :: (us ++ [.word y])
  | complete p => Derives .primary ts p

namespace Reading

/-- The tokens read so far, divided among the parts of the reading. -/
structure Spelled (r : Reading) (ms os cs fs : List Token) : Prop where
  target : r.target.Spells ms
  outer : SpellsOuter os r.outer
  clause : r.clause.Spells cs
  focus : r.focus.Spells fs

/-- The tokens lead to the reading. -/
def Spells (ts : List Token) (r : Reading) : Prop :=
  ∃ ms os cs fs, r.Spelled ms os cs fs ∧ ts = ms ++ (os ++ (cs ++ fs))

variable {r r' : Reading} {t : Token} {ts ms os cs fs : List Token} {p : Formula}

theorem spells_ofFormula : ofFormula.Spells [] :=
  ⟨[], [], [], [], ⟨rfl, .nil, Clause.spells_empty, rfl⟩, rfl⟩

theorem spells_ofSequent : ofSequent.Spells [] :=
  ⟨[], [], [], [], ⟨.nil, .nil, Clause.spells_empty, rfl⟩, rfl⟩

/-- At the beginning of a list nothing of it has been read. -/
theorem eq_of_atListStart (h : r.atListStart = true) :
    r.outer = [] ∧ r.clause = {} ∧ r.focus = .operand ∧
      (r.target = .antecedent [] ∨ ∃ ant, r.target = .consequent ant []) := by
  obtain ⟨target, outer, clause, focus⟩ := r
  simp only [atListStart, Bool.and_eq_true, List.isEmpty_iff, beq_iff_eq] at h
  obtain ⟨⟨⟨rfl, rfl⟩, rfl⟩, htarget⟩ := h
  refine ⟨rfl, rfl, rfl, ?_⟩
  cases target with
  | formula => cases htarget
  | antecedent done => exact Or.inl (by rw [List.isEmpty_iff.mp htarget])
  | consequent ant done => exact Or.inr ⟨ant, by rw [List.isEmpty_iff.mp htarget]⟩

/-- At the start of a list nothing has been read of its formula. -/
theorem Spelled.eq_nil_of_atListStart (h : r.Spelled ms os cs fs)
    (hstart : r.atListStart = true) : os ++ (cs ++ fs) = [] := by
  obtain ⟨hnil, hempty, hoperand, -⟩ := eq_of_atListStart hstart
  have houter := h.outer
  have hclause := h.clause
  have hfocus := h.focus
  rw [hnil] at houter
  rw [hempty] at hclause
  rw [hoperand] at hfocus
  cases houter
  rw [Clause.eq_nil_of_spells_empty hclause, show fs = [] from hfocus]
  rfl

/-- A step at an operand spells one token more. -/
theorem Spelled.stepOperand (h : r.Spelled ms os cs []) (hstep : r.stepOperand t = some r') :
    r'.Spells (ms ++ (os ++ (cs ++ [t]))) := by
  unfold Reading.stepOperand at hstep
  split at hstep
  · cases hstep
    exact ⟨ms, os, cs, _, ⟨h.target, h.outer, h.clause, rfl⟩, rfl⟩
  · cases hstep
    refine ⟨ms, os, _, [], ⟨h.target, h.outer, h.clause.under .negation, h.focus⟩, ?_⟩
    simp
  · rename_i k x
    cases hstep
    refine ⟨ms, os, _, [], ⟨h.target, h.outer, h.clause.under (.glued k x), h.focus⟩, ?_⟩
    simp
  · cases hstep
    exact ⟨ms, os, cs, _, ⟨h.target, h.outer, h.clause, rfl⟩, rfl⟩
  · cases hstep
    refine ⟨ms, _, [], [], ⟨h.target, h.outer.cons h.clause, Clause.spells_empty, h.focus⟩, ?_⟩
    simp
  · -- a semicolon where an operand is to come: the antecedent has to be empty
    split at hstep
    · rename_i done hstart hdone
      cases hstep
      have htarget := h.target
      obtain ⟨-, -, -, hnone | ⟨_, hcon⟩⟩ := eq_of_atListStart hstart
      · rw [hnone] at htarget
        cases htarget
        have hrest := h.eq_nil_of_atListStart hstart
        rw [List.append_nil] at hrest
        refine ⟨[.semicolon], [], [], [], ⟨⟨[], [], ⟨[], .nil, rfl⟩, .nil, rfl⟩, .nil,
          Clause.spells_empty, rfl⟩, ?_⟩
        rw [List.nil_append, ← List.append_assoc, hrest]
        rfl
      · rw [hdone] at hcon
        cases hcon
    · cases hstep
  · cases hstep

/-- A step behind an operand spells one token more. -/
theorem Spelled.stepAfterOperand (h : r.Spelled ms os cs fs) (hp : Derives .primary fs p)
    (hstep : r.stepAfterOperand p t = some r') : r'.Spells (ms ++ (os ++ (cs ++ (fs ++ [t])))) := by
  -- every way on closes the clause first, except for an operator
  have hclose := h.clause.close hp
  have htarget := h.target
  have houter := h.outer
  unfold Reading.stepAfterOperand at hstep
  split at hstep
  · rename_i op
    cases hstep
    refine ⟨ms, os, _, [], ⟨htarget, houter, h.clause.join hp op, rfl⟩, ?_⟩
    simp
  · -- a right parenthesis makes the clause an operand of the one around it
    split at hstep
    · rename_i c outer hcs
      cases hstep
      rw [hcs] at houter
      cases houter with
      | cons houter hc =>
          refine ⟨ms, _, _, _, ⟨htarget, houter, hc, hclose.parentheses⟩, ?_⟩
          simp
    · cases hstep
  · -- a comma completes a member on either side
    split at hstep
    · rename_i done hnil hdone
      cases hstep
      rw [hdone] at htarget
      rw [hnil] at houter
      cases houter
      refine ⟨_, [], [], [], ⟨htarget.cons hclose, .nil, Clause.spells_empty, rfl⟩, ?_⟩
      simp
    · rename_i ant done hnil hdone
      cases hstep
      rw [hdone] at htarget
      rw [hnil] at houter
      cases houter
      obtain ⟨us, vs, hant, hlisted, rfl⟩ := htarget
      refine ⟨_, [], [], [], ⟨⟨us, _, hant, hlisted.cons hclose, rfl⟩, .nil, Clause.spells_empty,
        rfl⟩, ?_⟩
      simp
    · cases hstep
  · -- the semicolon completes the antecedent
    split at hstep
    · rename_i done hnil hdone
      cases hstep
      rw [hdone] at htarget
      rw [hnil] at houter
      cases houter
      obtain ⟨tss, htss, heq⟩ := htarget.separated hclose
      refine ⟨_, [], [], [], ⟨⟨_, [], ⟨tss, htss, heq⟩, .nil, rfl⟩, .nil, Clause.spells_empty,
        rfl⟩, ?_⟩
      simp
    · cases hstep
  · cases hstep

/-- One more token. -/
theorem Spells.step (h : r.Spells ts) (hstep : r.step t = some r') : r'.Spells (ts ++ [t]) := by
  obtain ⟨ms, os, cs, fs, h, rfl⟩ := h
  -- what has been read of the operand depends on where the reading stands
  have hfocus := h.focus
  simp only [List.append_assoc]
  unfold Reading.step at hstep
  split at hstep
  · rename_i hoperand
    rw [hoperand] at hfocus
    obtain rfl : fs = [] := hfocus
    exact h.stepOperand hstep
  · -- the variable of a quantifier that stands apart
    rename_i k x hbinding
    cases hstep
    rw [hbinding] at hfocus
    obtain rfl : fs = [.quantifier k] := hfocus
    refine ⟨ms, os, _, [], ⟨h.target, h.outer, h.clause.under (.quantified k x), rfl⟩, ?_⟩
    simp
  · cases hstep
  · rename_i name hname
    cases hstep
    rw [hname] at hfocus
    obtain rfl : fs = [.word name] := hfocus
    exact ⟨ms, os, cs, _, ⟨h.target, h.outer, h.clause, ⟨[], .nil, rfl⟩⟩, rfl⟩
  · -- without a bracket the word was an atom of its own
    rename_i name hname _
    rw [hname] at hfocus
    obtain rfl : fs = [.word name] := hfocus
    exact h.stepAfterOperand (.predicate name) hstep
  · rename_i name xs x hterm
    cases hstep
    rw [hterm] at hfocus
    obtain ⟨us, hxs, rfl⟩ := hfocus
    exact ⟨ms, os, cs, _, ⟨h.target, h.outer, h.clause, ⟨us, x, xs, hxs, rfl, rfl⟩⟩, rfl⟩
  · cases hstep
  · rename_i name xs hterms
    cases hstep
    rw [hterms] at hfocus
    obtain ⟨us, y, ys, hys, rfl, rfl⟩ := hfocus
    refine ⟨ms, os, cs, _, ⟨h.target, h.outer, h.clause, ⟨_, hys.cons rfl, rfl⟩⟩, ?_⟩
    simp
  · rename_i name xs hterms
    cases hstep
    rw [hterms] at hfocus
    obtain ⟨us, y, ys, hys, rfl, rfl⟩ := hfocus
    exact ⟨ms, os, cs, _, ⟨h.target, h.outer, h.clause, hys.application name y⟩, rfl⟩
  · cases hstep
  · rename_i q _ hcomplete
    rw [hcomplete] at hfocus
    exact h.stepAfterOperand hfocus hstep

/-- Any number of tokens. -/
theorem Spells.readAll {us : List Token} (h : r.Spells ts) (hread : r.readAll us = some r') :
    r'.Spells (ts ++ us) := by
  induction us generalizing r ts with
  | nil =>
      cases hread
      rw [List.append_nil]
      exact h
  | cons t us ih =>
      obtain ⟨r₁, hstep, hrest⟩ := readAll_cons_eq_some_iff.mp hread
      rw [List.append_cons]
      exact ih (h.step hstep) hrest

/-- A finished operand derives the formula that it closes. -/
theorem Spelled.operand? (h : r.Spelled ms os cs fs) (hp : r.operand? = some p) :
    Derives .formula (os ++ (cs ++ fs)) p := by
  have houter := h.outer
  have hfocus := h.focus
  unfold Reading.operand? at hp
  split at hp
  · rename_i name hnil hname
    cases hp
    rw [hnil] at houter
    rw [hname] at hfocus
    cases houter
    obtain rfl : fs = [.word name] := hfocus
    exact h.clause.close (.predicate name)
  · rename_i q hnil hcomplete
    cases hp
    rw [hnil] at houter
    rw [hcomplete] at hfocus
    cases houter
    exact h.clause.close hfocus
  · cases hp

/-- The formula that has been read is derived by the tokens. -/
theorem Spells.formula? (h : r.Spells ts) (hp : r.formula? = some p) : Derives .formula ts p := by
  obtain ⟨ms, os, cs, fs, h, rfl⟩ := h
  have htarget := h.target
  unfold Reading.formula? at hp
  split at hp
  · rename_i hformula
    rw [hformula] at htarget
    obtain rfl : ms = [] := htarget
    exact h.operand? hp
  · cases hp

/-- The sequent that has been read is derived by the tokens. -/
theorem Spells.sequent? {s : Sequent} (h : r.Spells ts) (hs : r.sequent? = some s) :
    s.Derives ts := by
  obtain ⟨ms, os, cs, fs, h, rfl⟩ := h
  have htarget := h.target
  unfold Reading.sequent? at hs
  split at hs
  · rename_i ant done hcon
    rw [hcon] at htarget
    obtain ⟨us, vs, hant, hlisted, rfl⟩ := htarget
    split at hs
    · -- the consequent is empty
      rename_i hstart
      cases hs
      obtain ⟨-, -, -, hant' | ⟨_, hcon'⟩⟩ := eq_of_atListStart hstart
      · rw [hcon] at hant'
        cases hant'
      · rw [hcon] at hcon'
        cases hcon'
        cases hlisted
        refine ⟨us, [], hant, ⟨[], .nil, rfl⟩, ?_⟩
        rw [h.eq_nil_of_atListStart hstart, List.append_nil]
    · obtain ⟨p, hp, heq⟩ := Option.map_eq_some_iff.mp hs
      cases heq
      obtain ⟨tss, htss, heq⟩ := hlisted.separated (h.operand? hp)
      refine ⟨us, _, hant, ⟨tss, htss, heq⟩, ?_⟩
      simp
  · cases hs

end Reading

/-! ## Reading and the grammar -/

/-- The tokens of a formula are those that the grammar derives it from. -/
theorem Reading.formula?_iff_derives {ts : List Token} {p : Formula} :
    (∃ r, ofFormula.readAll ts = some r ∧ r.formula? = some p) ↔ Derives .formula ts p := by
  constructor
  · rintro ⟨r, hread, hp⟩
    exact (spells_ofFormula.readAll hread).formula? hp
  · intro h
    obtain ⟨r, hread, hagree⟩ := h.completes ofFormula rfl ⟨rfl, rfl, rfl⟩
    exact ⟨r, hread, hagree.formula?⟩

/-- The tokens of a sequent are those that the grammar derives it from. -/
theorem Reading.sequent?_iff_derives {ts : List Token} {s : Sequent} :
    (∃ r, ofSequent.readAll ts = some r ∧ r.sequent? = some s) ↔ s.Derives ts := by
  constructor
  · rintro ⟨r, hread, hs⟩
    exact (spells_ofSequent.readAll hread).sequent? hs
  · exact Sequent.Derives.readAll

/-- **Reading accepts exactly the grammar.**  Whatever the places of the tokens,
    reading them to the end gives a formula or a sequent if and only if the
    grammar derives it from them, and it derives no other one.  So a text is read
    if and only if it is cut into tokens from which the result is derived. -/
theorem reading_iff_derives :
    (∀ (size : Nat) (ls : List Lexeme) (p : Formula),
      Reading.ofFormula.complete Reading.formula? size ls = .ok p ↔
        Derives .formula (ls.map Lexeme.token) p) ∧
    (∀ (size : Nat) (ls : List Lexeme) (s : Sequent),
      Reading.ofSequent.complete Reading.sequent? size ls = .ok s ↔
        s.Derives (ls.map Lexeme.token)) ∧
    (∀ ts p q, Derives .formula ts p → Derives .formula ts q → p = q) ∧
    (∀ ts (s s' : Sequent), s.Derives ts → s'.Derives ts → s = s') ∧
    (∀ source p, Formula.parse source = .ok p ↔
      ∃ ls, lex source.toList = .ok ls ∧ Derives .formula (ls.map Lexeme.token) p) ∧
    ∀ source s, Sequent.parse source = .ok s ↔
      ∃ ls, lex source.toList = .ok ls ∧ s.Derives (ls.map Lexeme.token) := by
  refine ⟨?_, ?_, ?_, ?_, ?_, ?_⟩
  · intro size ls p
    rw [Reading.complete_eq_ok_iff, Reading.formula?_iff_derives]
  · intro size ls s
    rw [Reading.complete_eq_ok_iff, Reading.sequent?_iff_derives]
  · -- reading is a function of the tokens, so what they derive is unique
    intro ts p q hp hq
    obtain ⟨r, hread, hp⟩ := Reading.formula?_iff_derives.mpr hp
    obtain ⟨r', hread', hq⟩ := Reading.formula?_iff_derives.mpr hq
    rw [hread] at hread'
    cases hread'
    exact Option.some.inj (hp.symm.trans hq)
  · intro ts s s' hs hs'
    obtain ⟨r, hread, hs⟩ := Reading.sequent?_iff_derives.mpr hs
    obtain ⟨r', hread', hs'⟩ := Reading.sequent?_iff_derives.mpr hs'
    rw [hread] at hread'
    cases hread'
    exact Option.some.inj (hs.symm.trans hs')
  · intro source p
    rw [Formula.parse, readText_eq_ok_iff]
    simp only [exists_and_left, Reading.formula?_iff_derives]
  · intro source s
    rw [Sequent.parse, readText_eq_ok_iff]
    simp only [exists_and_left, Reading.sequent?_iff_derives]

end SequentCalculus
