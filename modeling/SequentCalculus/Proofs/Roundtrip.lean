import SequentCalculus.Proofs.Grammar
import SequentCalculus.Proofs.Lexing
import SequentCalculus.Sequent.Display

/-! # Display and reading are inverse on well-named values

    The canonical text of a well-named formula is cut into `Formula.tokens`, as
    every name in it is a term and is followed by a sign, a blank or the end;
    and the grammar derives the formula from these tokens.  Nothing else can be read:
    whatever is read from any text is well-named, so a formula with a name that
    is no term is never the result of reading its own display. -/

namespace SequentCalculus

/-! ## The tokens of the canonical display -/

def Atom.tokens (a : Atom) : List Token :=
  match a.terms with
  | [] => [.word a.predicate]
  | ts =>
      .word a.predicate :: .leftAngle ::
        Token.commaSeparated (ts.map fun t => [.word t]) ++ [.rightAngle]

/-- The tokens of a formula; the flag says whether it is an operand. -/
def Formula.tokens : Formula → (operand : Bool) → List Token
  | atom a, _ => a.tokens
  | negation p, _ => .negation :: p.tokens true
  | binary op p q, false => p.tokens true ++ .operator op :: q.tokens true
  | binary op p q, true =>
      .leftParen :: (p.tokens true ++ .operator op :: q.tokens true) ++ [.rightParen]
  | quantified k x p, _ => .quantifier k :: .word x :: p.tokens true

def sideTokens (ps : List Formula) : List Token :=
  Token.commaSeparated (ps.map fun p => p.tokens false)

def Sequent.tokens (s : Sequent) : List Token :=
  sideTokens s.antecedent ++ .semicolon :: sideTokens s.consequent

/-- The tokens of an atom derive it. -/
theorem Atom.derives_tokens (a : Atom) : Derives .primary a.tokens (.atom a) := by
  obtain ⟨name, ts⟩ := a
  cases ts with
  | nil => exact .predicate name
  | cons t ts => exact .application name (List.cons_ne_nil t ts)

/-- Operands of any connective may stand without parentheses if they are no
    compounds of two. -/
theorem Derives.binary {ts us : List Token} {p q : Formula} (hp : Derives .unary ts p)
    (hq : Derives .unary us q) (op : Operator) :
    Derives .formula (ts ++ .operator op :: us) (.binary op p q) := by
  cases op with
  | conjunction => exact (hp.ofUnary.conjunction hq).ofConjunction.ofDisjunction
  | disjunction => exact (hp.ofUnary.ofConjunction.disjunction hq.ofUnary).ofDisjunction
  | conditional =>
      exact hp.ofUnary.ofConjunction.conditional hq.ofUnary.ofConjunction.ofDisjunction

/-- Written as an operand, with parentheses where it has two operands itself, a
    formula is derived by its tokens at the level of operands. -/
theorem Formula.derives_operand_tokens (p : Formula) : Derives .unary (p.tokens true) p := by
  induction p with
  | atom a => exact a.derives_tokens.ofPrimary
  | negation p ih => exact ih.negation
  | binary op p q ihp ihq => exact (ihp.binary ihq op).parentheses.ofPrimary
  | quantified k x p ih => exact ih.quantified k x

/-- The tokens of a formula derive it. -/
theorem Formula.derives_tokens (p : Formula) : Derives .formula (p.tokens false) p := by
  have hoperand := p.derives_operand_tokens.ofUnary.ofConjunction.ofDisjunction
  cases p with
  | binary op p q => exact p.derives_operand_tokens.binary q.derives_operand_tokens op
  | _ => exact hoperand

/-- The tokens of a side derive the formulas on it. -/
theorem derivesList_sideTokens (ps : List Formula) : DerivesList (sideTokens ps) ps := by
  refine ⟨_, ?_, rfl⟩
  rw [List.forall₂_map_left_iff, List.forall₂_same]
  exact fun p _ => p.derives_tokens

/-- The tokens of a sequent derive it. -/
theorem Sequent.derives_tokens (s : Sequent) : s.Derives s.tokens :=
  ⟨_, _, derivesList_sideTokens _, derivesList_sideTokens _, rfl⟩

/-! ## The text of styled pieces -/

namespace Styled

/-- The plain text of pieces is the text of one after the other. -/
theorem toList_plain (t : Styled) : t.plain.toList = t.flatMap fun p => p.text.toList := by
  induction t with
  | nil => rfl
  | cons p t ih =>
      rw [plain, List.map_cons, String.join_cons, String.toList_append, List.flatMap_cons, ← ih]
      rfl

theorem toList_plain_cons (p : Piece) (t : Styled) :
    (plain (p :: t)).toList = p.text.toList ++ t.plain.toList := by
  rw [toList_plain, toList_plain, List.flatMap_cons]

theorem toList_plain_append (t u : Styled) :
    (t ++ u).plain.toList = t.plain.toList ++ u.plain.toList := by
  simp only [toList_plain, List.flatMap_append]

theorem toList_plain_only (r : Role) (text : String) :
    (only r text).plain.toList = text.toList := by
  rw [toList_plain]
  simp [only]

theorem toList_plain_space : space.plain.toList = [' '] := by
  rw [toList_plain]
  rfl

/-- Before anything that ends a word, the text adds the given tokens. -/
def LexesAs (t : Styled) (us : List Token) : Prop :=
  ∀ cs ts, EndsWord cs → Lexes cs ts → Lexes (t.plain.toList ++ cs) (us ++ ts)

/-- Items with a comma and a blank between each two. -/
theorem lexesAs_joinWith {α : Type} {f : α → Styled} {g : α → List Token} {xs : List α}
    (h : ∀ x ∈ xs, (f x).LexesAs (g x)) :
    (joinWith (only .punctuation ", ") (xs.map f)).LexesAs (Token.commaSeparated (xs.map g)) := by
  induction xs with
  | nil => exact fun cs ts _ hlex => hlex
  | cons x xs ih =>
      rw [List.forall_mem_cons] at h
      cases xs with
      | nil => exact h.1
      | cons y ys =>
          intro cs ts hcs hlex
          -- the comma ends the last word of the first item
          have hcomma := ((ih h.2 cs ts hcs hlex).blank).sign (c := ',') rfl rfl
          have hitem := h.1 _ _ (by intro c hc; cases hc; rfl) hcomma
          simp only [List.map_cons, joinWith, Token.commaSeparated, toList_plain_append,
            toList_plain_only, List.append_assoc, List.cons_append] at hitem ⊢
          exact hitem

end Styled

/-! ## Lexing the display -/

/-- A character that belongs to no word ends the word before it. -/
theorem endsWord_of_head {c : Char} {cs : List Char} (h : isWordChar c = false) :
    EndsWord (c :: cs) := by
  rintro _ ⟨⟩
  exact h

/-- The sign of an operator is read as the operator, before anything that does not go
    on with a word. -/
theorem Operator.lexes_symbol (op : Operator) {cs : List Char} {ts : List Token}
    (hcs : EndsWord cs) (h : Lexes cs ts) :
    Lexes (op.symbol.toList ++ cs) (.operator op :: ts) := by
  cases op with
  | conjunction => exact h.sign rfl rfl
  | disjunction => exact h.word (w := ['v']) hcs rfl
  | conditional => exact h.arrow

/-- The sign of a quantifier is read as the quantifier, whatever follows. -/
theorem Quantifier.lexes_symbol (k : Quantifier) {cs : List Char} {ts : List Token}
    (h : Lexes cs ts) : Lexes (k.symbol.toList ++ cs) (.quantifier k :: ts) := by
  cases k with
  | universal => exact h.sign rfl rfl
  | existential => exact h.sign rfl rfl

/-- A well-named atom is read as its tokens. -/
theorem Atom.lexesAs_styled {a : Atom} (h : (Formula.atom a).WellNamed) :
    a.styled.LexesAs a.tokens := by
  obtain ⟨hname, hterms⟩ := Formula.wellNamed_atom.mp h
  obtain ⟨name, ts⟩ := a
  intro cs us hcs hlex
  cases ts with
  | nil =>
      show Lexes ((Styled.only .predicate name).plain.toList ++ cs) _
      rw [Styled.toList_plain_only]
      exact hlex.term hcs hname
  | cons t ts =>
      have hitem : ∀ u ∈ t :: ts, (Styled.only .term u).LexesAs [.word u] := by
        intro u hu cs us hcs hlex
        rw [Styled.toList_plain_only]
        exact hlex.term hcs (hterms u hu)
      have hclose := hlex.sign (c := '>') rfl rfl
      have hlist := Styled.lexesAs_joinWith hitem _ _ (endsWord_of_head rfl) hclose
      have hopen := hlist.sign (c := '<') rfl rfl
      have hall := hopen.term (endsWord_of_head rfl) hname
      simp only [styled, tokens, Styled.toList_plain_append, Styled.toList_plain_only,
        List.append_assoc, List.cons_append] at hall ⊢
      exact hall

/-- A well-named formula is read as its tokens, as an operand or by itself. -/
theorem Formula.lexesAs_styledAt {p : Formula} (h : p.WellNamed) (operand : Bool)
    (depth : Nat) : (p.styledAt operand depth).LexesAs (p.tokens operand) := by
  induction p generalizing operand depth with
  | atom a => exact Atom.lexesAs_styled h
  | negation p ih =>
      intro cs ts hcs hlex
      have hall := (ih h true depth cs ts hcs hlex).sign (c := '~') rfl rfl
      simp only [styledAt, tokens, Styled.toList_plain_append, Styled.toList_plain_only] at hall ⊢
      exact hall
  | binary op p q ihp ihq =>
      obtain ⟨hp, hq⟩ := wellNamed_binary.mp h
      have hjoin : ∀ depth, (p.styledAt true depth ++ Styled.space ++
          Styled.only .operator op.symbol ++ Styled.space ++ q.styledAt true depth).LexesAs
          (p.tokens true ++ .operator op :: q.tokens true) := by
        intro depth cs ts hcs hlex
        -- from the right: what follows a word has to end it, and a blank does
        have hright := (ihq hq true depth cs ts hcs hlex).blank
        have hop := (op.lexes_symbol (endsWord_of_head rfl) hright).blank
        have hall := ihp hp true depth _ _ (endsWord_of_head rfl) hop
        simp only [Styled.toList_plain_append, Styled.toList_plain_only,
          Styled.toList_plain_space, List.append_assoc] at hall ⊢
        exact hall
      cases operand with
      | false => exact hjoin depth
      | true =>
          intro cs ts hcs hlex
          have hclose := hlex.sign (c := ')') rfl rfl
          have hinner := hjoin (depth + 1) _ _ (endsWord_of_head rfl) hclose
          have hall := hinner.sign (c := '(') rfl rfl
          simp only [styledAt, tokens, Styled.toList_plain_append, Styled.toList_plain_only,
            List.append_assoc, List.cons_append] at hall ⊢
          exact hall
  | quantified k x p ih =>
      obtain ⟨hx, hp⟩ := wellNamed_quantified.mp h
      intro cs ts hcs hlex
      have hbody := (ih hp true depth cs ts hcs hlex).blank
      have hall := k.lexes_symbol (hbody.term (endsWord_of_head rfl) hx)
      simp only [styledAt, tokens, Styled.toList_plain_append, Styled.toList_plain_only,
        Styled.toList_plain_space, String.toList_append, List.append_assoc] at hall ⊢
      exact hall

/-- So are the formulas of a side, commas between them. -/
theorem lexesAs_styledSide {ps : List Formula} (h : ∀ p ∈ ps, p.WellNamed) :
    (styledSide ps).LexesAs (sideTokens ps) :=
  Styled.lexesAs_joinWith fun p hp => Formula.lexesAs_styledAt (h p hp) false 0

/-- The display of a well-named formula consists of its tokens. -/
theorem Formula.lexes_display {p : Formula} (h : p.WellNamed) :
    Lexes p.display.toList (p.tokens false) := by
  have hall := Formula.lexesAs_styledAt h false 0 [] [] (fun _ hc => nomatch hc) Lexes.nil
  rw [List.append_nil, List.append_nil] at hall
  exact hall

/-- The display of a well-named sequent consists of its tokens. -/
theorem Sequent.lexes_display {s : Sequent} (h : s.WellNamed) :
    Lexes s.display.toList s.tokens := by
  obtain ⟨hant, hcon⟩ := List.forall_mem_append.mp h
  have hright := lexesAs_styledSide hcon [] [] (fun _ hc => nomatch hc) Lexes.nil
  have hsign := hright.blank.sign (c := ';') rfl rfl
  have hall := lexesAs_styledSide hant _ _ (endsWord_of_head rfl) hsign
  simp only [List.append_nil, display, styled, tokens, Styled.toList_plain_append,
    Styled.toList_plain_only, Styled.toList_plain_space, List.append_assoc] at hall ⊢
  exact hall

/-! ## Reading a text -/

/-- Reading succeeds on a text whose tokens lead to a result. -/
theorem readText_of_lexes {α : Type} {start : Reading} {result : Reading → Option α}
    {source : String} {ts : List Token} {a : α} (hlex : Lexes source.toList ts)
    (hread : ∃ r, start.readAll ts = some r ∧ result r = some a) :
    readText start result source = .ok a := by
  obtain ⟨ls, hls, rfl⟩ := hlex false 0
  obtain ⟨r, hread, hresult⟩ := hread
  exact readText_eq_ok_iff.mpr ⟨ls, r, hls, hread, hresult⟩

/-- A result of reading comes out of a well-named reading. -/
theorem exists_reading_of_readText {α : Type} {start : Reading} {result : Reading → Option α}
    {source : String} {a : α} (hstart : start.WellNamed)
    (h : readText start result source = .ok a) : ∃ r, r.WellNamed ∧ result r = some a := by
  obtain ⟨ls, r, hlex, hread, hresult⟩ := readText_eq_ok_iff.mp h
  have hnamed := hstart.feed (Scan.wellNamed_run (show (Scan.gap false).InWord from trivial) hlex)
  rw [Reading.feed_eq_iff.mpr hread] at hnamed
  exact ⟨r, hnamed, hresult⟩

/-- What is read from a text is well-named. -/
theorem Formula.wellNamed_of_parse {source : String} {p : Formula}
    (h : Formula.parse source = .ok p) : p.WellNamed := by
  obtain ⟨r, hr, hp⟩ := exists_reading_of_readText Reading.wellNamed_ofFormula h
  exact hr.formula? hp

theorem Sequent.wellNamed_of_parse {source : String} {s : Sequent}
    (h : Sequent.parse source = .ok s) : s.WellNamed := by
  obtain ⟨r, hr, hs⟩ := exists_reading_of_readText Reading.wellNamed_ofSequent h
  exact hr.sequent? hs

/-- A well-named formula is read back from its display. -/
theorem Formula.parse_display {p : Formula} (h : p.WellNamed) :
    Formula.parse p.display = .ok p :=
  readText_of_lexes (Formula.lexes_display h) (Reading.formula?_iff_derives.mpr p.derives_tokens)

/-- A well-named sequent is read back from its display. -/
theorem Sequent.parse_display {s : Sequent} (h : s.WellNamed) :
    Sequent.parse s.display = .ok s :=
  readText_of_lexes (Sequent.lexes_display h) (Reading.sequent?_iff_derives.mpr s.derives_tokens)

/-- **Display and reading are inverse exactly on well-named values.**  Whatever
    is read from a text is well-named, and a formula or a sequent is read back
    from its canonical display if and only if it is well-named. -/
theorem parse_display_iff_wellNamed :
    (∀ source p, Formula.parse source = .ok p → p.WellNamed) ∧
    (∀ source s, Sequent.parse source = .ok s → s.WellNamed) ∧
    (∀ p : Formula, Formula.parse p.display = .ok p ↔ p.WellNamed) ∧
    ∀ s : Sequent, Sequent.parse s.display = .ok s ↔ s.WellNamed := by
  refine ⟨?_, ?_, ?_, ?_⟩
  · intro source p h
    exact Formula.wellNamed_of_parse h
  · intro source s h
    exact Sequent.wellNamed_of_parse h
  · intro p
    exact ⟨Formula.wellNamed_of_parse, Formula.parse_display⟩
  · intro s
    exact ⟨Sequent.wellNamed_of_parse, Sequent.parse_display⟩

end SequentCalculus
