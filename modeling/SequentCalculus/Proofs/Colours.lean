import SequentCalculus.Proofs.Pieces
import SequentCalculus.Proofs.Roundtrip

/-! # Colours — what escape sequences add to a text

    The coloured rendering puts escape sequences around every piece that has a
    role.  Each sequence is complete, so deleting the sequences leaves the plain
    rendering (`Styled.leaves_coloured`), as long as no name brings an escape
    character of its own.  And each is obeyed by a terminal, which then shows what
    follows in the look of its role (`Styled.lookBehind_coloured_start`).

    Parentheses are coloured by the number of parentheses around them.  A text
    whose parentheses stand in pairs of one depth is `Styled.Nested`, and so is
    the text of every formula.  In such a text the closing parenthesis that belongs
    to an opening one, found by counting (`Styled.closing?`), has its depth and
    with it its colour, whatever the depth is counted in. -/

namespace SequentCalculus

/-! ## Deleting the sequences -/

/-- The characters that remain when every escape sequence, from `ESC [` to the
    next `m`, is deleted.  The flag says whether the text begins inside of a
    sequence. -/
def uncolour : (inside : Bool) → List Char → List Char
  | _, [] => []
  | true, c :: cs => uncolour (c != 'm') cs
  | false, '\x1b' :: '[' :: cs => uncolour true cs
  | false, c :: cs => c :: uncolour false cs

/-- A text without its escape sequences. -/
def withoutColours (s : String) : String := String.ofList (uncolour false s.toList)

/-- Only an escape character begins a sequence. -/
theorem uncolour_cons_of_ne {c : Char} (h : c ≠ '\x1b') (cs : List Char) :
    uncolour false (c :: cs) = c :: uncolour false cs := by
  rw [uncolour]
  intro ds hc
  exact absurd hc h

/-- What remains of the first text without its escape sequences is the second, and
    what follows is read as if the first were not there. -/
def Leaves (s plain : String) : Prop :=
  ∀ cs, uncolour false (s.toList ++ cs) = plain.toList ++ uncolour false cs

/-- A text without an escape character stays as it is. -/
theorem leaves_of_not_mem {s : String} (h : '\x1b' ∉ s.toList) : Leaves s s := by
  intro cs
  generalize s.toList = text at h
  induction text with
  | nil => rfl
  | cons c text ih =>
      obtain ⟨hc, htext⟩ := not_or.mp fun hmem => h (List.mem_cons.mpr hmem)
      rw [List.cons_append, uncolour_cons_of_ne (Ne.symm hc), ih htext]
      rfl

namespace Leaves

variable {s t p q : String}

/-- Texts in a row are read one after the other. -/
theorem append (hs : Leaves s p) (ht : Leaves t q) : Leaves (s ++ t) (p ++ q) := by
  intro cs
  rw [String.toList_append, String.toList_append, List.append_assoc, List.append_assoc, hs, ht]

theorem withoutColours_eq (h : Leaves s p) : withoutColours s = p := by
  have hs := h []
  rw [List.append_nil, uncolour, List.append_nil] at hs
  rw [withoutColours, hs, String.ofList_toList]

end Leaves

/-- Nothing remains of the sequence that ends a look. -/
theorem Look.leaves_reset : Leaves Look.reset "" := fun _ => rfl

/-- Nothing remains of the sequences that switch to a look. -/
theorem Look.leaves_start (l : Look) : Leaves l.start "" := by
  have hbold : Leaves (if l.bold then "\x1b[1m" else "") "" := by
    cases l.bold <;> exact fun _ => rfl
  have hdimmed : Leaves (if l.dimmed then "\x1b[2m" else "") "" := by
    cases l.dimmed <;> exact fun _ => rfl
  refine ((leaves_reset.append hbold).append hdimmed).append (q := "") ?_
  cases l.colour with
  | none => exact fun _ => rfl
  | some c => cases c <;> exact fun _ => rfl

theorem Piece.coloured_of_role (r : Role) (text : String) :
    (Piece.mk (some r) text).coloured = r.look.start ++ text ++ Look.reset := rfl

/-- The sequences around a piece leave its text. -/
theorem Piece.leaves_coloured {p : Piece} (h : '\x1b' ∉ p.text.toList) :
    Leaves p.coloured p.text := by
  unfold Piece.coloured
  split
  · rename_i r _
    have hpiece := (r.look.leaves_start.append (leaves_of_not_mem h)).append Look.leaves_reset
    rw [String.empty_append, String.append_empty] at hpiece
    exact hpiece
  · exact leaves_of_not_mem h

namespace Styled

theorem coloured_append (t u : Styled) : (t ++ u).coloured = t.coloured ++ u.coloured := by
  rw [coloured, List.map_append, String.join_append]
  rfl

theorem coloured_cons (p : Piece) (t : Styled) :
    coloured (p :: t) = p.coloured ++ t.coloured := by
  rw [coloured, List.map_cons, String.join_cons]
  rfl

/-- Deleting the escape sequences from the coloured rendering leaves the plain
    one. -/
theorem leaves_coloured {t : Styled} (h : t.Lacks '\x1b') : Leaves t.coloured t.plain := by
  induction t with
  | nil => exact fun _ => rfl
  | cons p t ih =>
      obtain ⟨hp, ht⟩ := List.forall_mem_cons.mp h
      rw [coloured_cons, plain, List.map_cons, String.join_cons]
      exact (Piece.leaves_coloured hp).append (ih ht)

end Styled

/-! ## The look in force -/

/-- The colour that a digit names in an escape sequence. -/
def Colour.ofDigit? : Char → Option Colour
  | '1' => some .red
  | '2' => some .green
  | '3' => some .yellow
  | '4' => some .blue
  | '5' => some .magenta
  | '6' => some .cyan
  | '7' => some .white
  | _ => none

/-- What a terminal does on the number in an escape sequence: `0` ends every look,
    `1` and `2` are bold and dimmed, and `3` with a digit is a colour. -/
def Look.obey (l : Look) : List Char → Look
  | ['0'] => {}
  | ['1'] => { l with bold := true }
  | ['2'] => { l with dimmed := true }
  | ['3', digit] => { l with colour := Colour.ofDigit? digit }
  | _ => l

/-- The look in force after a text.  Inside of an escape sequence, `number` is what
    has been read of it. -/
def lookAfter : (number : Option (List Char)) → Look → List Char → Look
  | _, l, [] => l
  | some number, l, c :: cs =>
      if c = 'm' then lookAfter none (l.obey number) cs
      else lookAfter (some (number ++ [c])) l cs
  | none, l, '\x1b' :: '[' :: cs => lookAfter (some []) l cs
  | none, l, _ :: cs => lookAfter none l cs

/-- The look that a terminal gives to what follows a text. -/
def lookBehind (s : String) : Look := lookAfter none {} s.toList

/-- A text without an escape character changes no look. -/
theorem lookAfter_append_of_not_mem {text : List Char} (h : '\x1b' ∉ text) (l : Look)
    (cs : List Char) : lookAfter none l (text ++ cs) = lookAfter none l cs := by
  induction text with
  | nil => rfl
  | cons c text ih =>
      obtain ⟨hc, htext⟩ := not_or.mp fun hmem => h (List.mem_cons.mpr hmem)
      rw [List.cons_append, lookAfter, ih htext]
      intro ds hesc
      exact absurd hesc.symm hc

/-- After the sequences that switch to a look, this look is in force. -/
theorem Look.lookAfter_start (l previous : Look) (cs : List Char) :
    lookAfter none previous (l.start.toList ++ cs) = lookAfter none l cs := by
  obtain ⟨bold, dimmed, colour⟩ := l
  cases bold <;> cases dimmed <;> cases colour with
  | none => rfl
  | some c => cases c <;> rfl

/-- No look outlasts its piece. -/
theorem Piece.lookAfter_coloured {p : Piece} (h : '\x1b' ∉ p.text.toList) (cs : List Char) :
    lookAfter none {} (p.coloured.toList ++ cs) = lookAfter none {} cs := by
  unfold Piece.coloured
  split
  · rename_i r _
    rw [String.toList_append, String.toList_append, List.append_assoc, List.append_assoc,
      r.look.lookAfter_start, lookAfter_append_of_not_mem h]
    rfl
  · exact lookAfter_append_of_not_mem h {} cs

/-- After a coloured text no look is in force. -/
theorem Styled.lookAfter_coloured {t : Styled} (h : t.Lacks '\x1b') (cs : List Char) :
    lookAfter none {} (t.coloured.toList ++ cs) = lookAfter none {} cs := by
  induction t with
  | nil => rfl
  | cons p t ih =>
      obtain ⟨hp, ht⟩ := List.forall_mem_cons.mp h
      rw [coloured_cons, String.toList_append, List.append_assoc, Piece.lookAfter_coloured hp,
        ih ht]

/-- So what follows the sequences of a look has exactly this look. -/
theorem Styled.lookBehind_coloured_start {t : Styled} (h : t.Lacks '\x1b') (l : Look) :
    lookBehind (t.coloured ++ l.start) = l := by
  have hstart := l.lookAfter_start {} []
  rw [List.append_nil] at hstart
  rw [lookBehind, String.toList_append, lookAfter_coloured h, hstart]
  rfl

/-! ## Pairs of parentheses -/

namespace Piece

/-- The piece is an opening parenthesis, and no part of a name. -/
def isOpening (p : Piece) : Bool :=
  match p.role with
  | some (.parenthesis _) => p.text == "("
  | _ => false

theorem eq_of_isOpening {p : Piece} (h : p.isOpening = true) :
    ∃ d, p = ⟨some (.parenthesis d), "("⟩ := by
  obtain ⟨role, text⟩ := p
  rw [isOpening] at h
  split at h
  · rename_i d hd
    have htext : text = "(" := beq_iff_eq.mp h
    exact ⟨d, by rw [show role = _ from hd, htext]⟩
  · cases h

/-- The piece is a closing parenthesis, and no part of a name. -/
def isClosing (p : Piece) : Bool :=
  match p.role with
  | some (.parenthesis _) => p.text == ")"
  | _ => false

end Piece

namespace Styled

/-- The closing parenthesis that belongs to an opening one right before the text,
    with what stands before and behind it.  On the way to it the parentheses
    opened meanwhile and not yet closed are counted. -/
def closing? : (pending : Nat) → Styled → Option (Styled × Piece × Styled)
  | _, [] => none
  | pending, p :: t =>
      if p.isOpening then (closing? (pending + 1) t).map fun s => (p :: s.1, s.2)
      else if p.isClosing then
        if pending = 0 then some ([], p, t)
        else (closing? (pending - 1) t).map fun s => (p :: s.1, s.2)
      else (closing? pending t).map fun s => (p :: s.1, s.2)

/-- The parentheses stand in pairs, with `depth` more around them than the text
    shows, and each has the role that belongs to its depth. -/
inductive Nested : (depth : Nat) → Styled → Prop
  | nil (depth : Nat) : Nested depth []
  | other {depth : Nat} {p : Piece} {t : Styled} (hp : ∀ d, p.role ≠ some (.parenthesis d))
      (ht : Nested depth t) : Nested depth (p :: t)
  | pair {depth : Nat} {t u : Styled} (ht : Nested (depth + 1) t) (hu : Nested depth u) :
      Nested depth (⟨some (.parenthesis depth), "("⟩ ::
        (t ++ ⟨some (.parenthesis depth), ")"⟩ :: u))

namespace Nested

variable {depth : Nat} {t u : Styled}

/-- Texts in a row have their parentheses in pairs if each has. -/
theorem append (ht : Nested depth t) (hu : Nested depth u) : Nested depth (t ++ u) := by
  induction ht with
  | nil => exact hu
  | other hp _ ih => exact .other hp (ih hu)
  | pair hinner _ _ ih =>
      rw [List.cons_append, List.append_assoc, List.cons_append]
      exact .pair hinner (ih hu)

/-- A text without parentheses. -/
theorem of_role_ne (h : ∀ p ∈ t, ∀ d, p.role ≠ some (.parenthesis d)) : Nested depth t := by
  induction t with
  | nil => exact .nil depth
  | cons p t ih =>
      obtain ⟨hp, ht⟩ := List.forall_mem_cons.mp h
      exact .other hp (ih ht)

theorem of_only (r : Role) (hr : ∀ d, r ≠ .parenthesis d) (text : String) :
    Nested depth (only r text) :=
  .other (fun d h => hr d (Option.some.inj h)) (.nil depth)

theorem of_operator (text : String) : Nested depth (only .operator text) :=
  of_only .operator (fun _ h => by cases h) text

theorem of_space : Nested depth space := .other (fun _ h => nomatch h) (.nil depth)

end Nested

/-- What is no parenthesis is passed over. -/
theorem closing?_other {p : Piece} (hp : ∀ d, p.role ≠ some (.parenthesis d)) (pending : Nat)
    (t : Styled) :
    closing? pending (p :: t) = (closing? pending t).map fun s => (p :: s.1, s.2) := by
  have hnone : p.isOpening = false ∧ p.isClosing = false := by
    unfold Piece.isOpening Piece.isClosing
    split
    · rename_i d hd
      exact absurd hd (hp d)
    · exact ⟨rfl, rfl⟩
  rw [closing?, hnone.1, hnone.2]
  rfl

/-- A text with all its parentheses in pairs is passed over. -/
theorem Nested.closing?_append {depth : Nat} {t : Styled} (ht : Nested depth t) (pending : Nat)
    (u : Styled) :
    closing? pending (t ++ u) = (closing? pending u).map fun s => (t ++ s.1, s.2) := by
  induction ht generalizing pending u with
  | nil =>
      cases h : closing? pending u <;> simp [h]
  | other hp _ ih =>
      rw [List.cons_append, closing?_other hp, ih, Option.map_map]
      rfl
  | @pair depth t v _ _ iht ihv =>
      have hopen : ∀ w, closing? pending (⟨some (.parenthesis depth), "("⟩ :: w) =
          (closing? (pending + 1) w).map fun s => (⟨some (.parenthesis depth), "("⟩ :: s.1, s.2) :=
        fun _ => rfl
      have hclose : ∀ w, closing? (pending + 1) (⟨some (.parenthesis depth), ")"⟩ :: w) =
          (closing? pending w).map fun s => (⟨some (.parenthesis depth), ")"⟩ :: s.1, s.2) :=
        fun _ => rfl
      rw [List.cons_append, List.append_assoc, List.cons_append, hopen, iht, hclose, ihv]
      simp only [Option.map_map, Function.comp_def, List.cons_append, List.append_assoc]

/-- A piece of a text other than `c` stands behind `c` or before it. -/
theorem append_cons_cases {t u before rest : Styled} {c o : Piece} (hne : o ≠ c)
    (h : t ++ c :: u = before ++ o :: rest) :
    (∃ front, u = front ++ o :: rest) ∨
      ∃ inner, t = before ++ o :: inner ∧ rest = inner ++ c :: u := by
  rcases List.append_eq_append_iff.mp h with ⟨front, -, hu⟩ | ⟨inner, ht, hrest⟩
  · cases front with
    | nil => exact absurd (List.cons.inj hu).1.symm hne
    | cons q front => exact Or.inl ⟨front, (List.cons.inj hu).2⟩
  · cases inner with
    | nil => exact absurd (List.cons.inj hrest).1 hne
    | cons q inner =>
        obtain ⟨rfl, rfl⟩ := List.cons.inj hrest
        exact Or.inr ⟨inner, ht, rfl⟩

/-- In a text with its parentheses in pairs, the closing parenthesis that belongs
    to an opening one has its depth, whatever follows the text. -/
theorem Nested.exists_closing {depth : Nat} {t : Styled} (ht : Nested depth t) :
    ∀ {before : Styled} {o : Piece} {rest : Styled}, t = before ++ o :: rest →
      o.isOpening = true → ∃ d between after, o = ⟨some (.parenthesis d), "("⟩ ∧
        rest = between ++ ⟨some (.parenthesis d), ")"⟩ :: after ∧
        ∀ u, closing? 0 (rest ++ u) =
          some (between, ⟨some (.parenthesis d), ")"⟩, after ++ u) := by
  induction ht with
  | nil =>
      intro before o rest heq
      cases before <;> cases heq
  | @other depth p t hp _ ih =>
      intro before o rest heq hopen
      cases before with
      | nil =>
          cases heq
          obtain ⟨d, rfl⟩ := Piece.eq_of_isOpening hopen
          exact absurd rfl (hp d)
      | cons q before =>
          cases heq
          exact ih rfl hopen
  | @pair depth t v ht _ iht ihv =>
      intro before o rest heq hopen
      cases before with
      | nil =>
          cases heq
          refine ⟨depth, t, v, rfl, rfl, fun u => ?_⟩
          rw [List.append_assoc, ht.closing?_append]
          show some (t ++ [], _) = _
          rw [List.append_nil]
          rfl
      | cons q before =>
          have hne : o ≠ ⟨some (.parenthesis depth), ")"⟩ := by
            rintro rfl
            cases hopen
          rcases append_cons_cases hne (List.cons.inj heq).2 with ⟨front, rfl⟩ | ⟨inner, rfl, rfl⟩
          · exact ihv rfl hopen
          · -- inside of the pair, where the rest of the pair follows
            obtain ⟨d, between, after, ho, rfl, hclosing⟩ := iht rfl hopen
            refine ⟨d, between, after ++ ⟨some (.parenthesis depth), ")"⟩ :: v, ho, ?_, fun u => ?_⟩
            · rw [List.append_assoc, List.cons_append]
            · rw [List.append_assoc, hclosing, List.append_assoc]

end Styled

/-! ## The parentheses of a formula -/

/-- The parentheses of an atom have no depth: they are punctuation. -/
theorem Atom.nested_styled (a : Atom) (depth : Nat) : Styled.Nested depth a.styled := by
  have hname : Styled.Nested depth (Styled.only .predicate a.predicate) :=
    .of_only .predicate (fun _ h => by cases h) _
  have hsign : ∀ text, Styled.Nested depth (Styled.only .punctuation text) :=
    .of_only .punctuation fun _ h => by cases h
  have hterms : ∀ ts : List String, Styled.Nested depth
      (Styled.joinWith (Styled.only .punctuation ", ") (ts.map (Styled.only .term))) := by
    intro ts
    refine .of_role_ne ?_
    intro p hp d hd
    rcases Styled.mem_joinWith hp with hp | ⟨t, ht, hp⟩
    · rw [List.mem_singleton.mp hp] at hd
      cases hd
    · obtain ⟨w, -, rfl⟩ := List.mem_map.mp ht
      rw [List.mem_singleton.mp hp] at hd
      cases hd
  rw [styled]
  split
  · exact hname
  · exact ((hname.append (hsign _)).append (hterms _)).append (hsign _)

/-- The parentheses of a formula stand in pairs, with any number of them around it. -/
theorem Formula.nested_styledAt (p : Formula) (operand : Bool) (depth : Nat) :
    Styled.Nested depth (p.styledAt operand depth) := by
  induction p generalizing operand depth with
  | atom a => exact a.nested_styled depth
  | negation p ih =>
      rw [styledAt]
      exact (Styled.Nested.of_operator "~").append (ih true depth)
  | binary op p q ihp ihq =>
      -- the operands are nested alike, one depth deeper if there are parentheses
      have hjoin : ∀ depth, Styled.Nested depth (p.styledAt true depth ++ Styled.space ++
          Styled.only .operator op.symbol ++ Styled.space ++ q.styledAt true depth) := by
        intro depth
        exact ((((ihp true depth).append .of_space).append (.of_operator op.symbol)).append
          .of_space).append (ihq true depth)
      cases operand with
      | false => exact hjoin depth
      | true =>
          have hpair := Styled.Nested.pair (hjoin (depth + 1)) (.nil depth)
          simp only [styledAt, Styled.only, List.append_assoc, List.cons_append,
            List.nil_append] at hpair ⊢
          exact hpair
  | quantified k x p ih =>
      have hbinder : Styled.Nested depth (Styled.only .quantifier (k.symbol ++ x)) :=
        .of_only .quantifier (fun _ h => by cases h) _
      rw [styledAt]
      exact (hbinder.append .of_space).append (ih true depth)

/-- **Coloured and plain rendering agree.**  Deleting the escape sequences from the
    coloured rendering of a formula, a sequent or a tree leaves the plain one, if
    no name has an escape character.  And every opening parenthesis of a formula
    has a closing one that belongs to it, and the same sequences, with the same
    colour, stand right before both, so that a terminal gives both this colour. -/
theorem coloured_agrees_with_plain :
    (∀ p : Formula, p.NamesLack '\x1b' → withoutColours p.styled.coloured = p.display) ∧
    (∀ s : Sequent, s.NamesLack '\x1b' → withoutColours s.styled.coloured = s.display) ∧
    (∀ t : ProofTree, t.NamesLack '\x1b' → withoutColours t.styled.coloured = t.outline) ∧
    ∀ (p : Formula) (before : Styled) (o : Piece) (rest : Styled),
      p.styled = before ++ o :: rest → o.isOpening = true →
      ∃ (between : Styled) (c : Piece) (after : Styled) (l : Look),
        rest.closing? 0 = some (between, c, after) ∧ l.colour.isSome = true ∧
        p.styled.coloured =
          before.coloured ++ (l.start ++ "(" ++ Look.reset) ++ between.coloured ++
            (l.start ++ ")" ++ Look.reset) ++ after.coloured ∧
        (p.NamesLack '\x1b' → lookBehind (before.coloured ++ l.start) = l ∧
          lookBehind (before.coloured ++ (l.start ++ "(" ++ Look.reset) ++ between.coloured ++
            l.start) = l) := by
  refine ⟨?_, ?_, ?_, ?_⟩
  · intro p hp
    exact (Styled.leaves_coloured (p.lacks_styledAt (by decide) hp false 0)).withoutColours_eq
  · intro s hs
    exact (Styled.leaves_coloured (s.lacks_styled (by decide) hs)).withoutColours_eq
  · intro t ht
    exact (Styled.leaves_coloured (t.lacks_styledAt (by decide) (by decide) ht 0)).withoutColours_eq
  · intro p before o rest hp ho
    -- the parenthesis that closes has the same depth and so the same look
    obtain ⟨d, between, after, rfl, hrest, hclosing⟩ :=
      (p.nested_styledAt false 0).exists_closing hp ho
    have hclosing' := hclosing []
    rw [List.append_nil, List.append_nil] at hclosing'
    refine ⟨between, _, after, (Role.parenthesis d).look, hclosing', rfl, ?_, fun hnames => ?_⟩
    · rw [hp, hrest]
      simp only [Styled.coloured_append, Styled.coloured_cons, Piece.coloured_of_role,
        String.append_assoc]
    · have hlacks : p.styled.Lacks '\x1b' := p.lacks_styledAt (by decide) hnames false 0
      rw [hp, hrest, ← List.cons_append, ← List.append_assoc] at hlacks
      -- up to either parenthesis no look is left over from before
      obtain ⟨hupTo, -⟩ := Styled.lacks_append.mp hlacks
      refine ⟨Styled.lookBehind_coloured_start (Styled.lacks_append.mp hupTo).1 _, ?_⟩
      have hclose := Styled.lookBehind_coloured_start hupTo (Role.parenthesis d).look
      rw [Styled.coloured_append, Styled.coloured_cons, Piece.coloured_of_role,
        ← String.append_assoc] at hclose
      exact hclose

/-- A letter whose name has a bracket, an `m` and a parenthesis, joined to itself
    again and again: `[3m( & ([3m( & ([3m( & ...))`. -/
def Formula.deep : Nat → Formula
  | 0 => .atom ⟨"[3m(", []⟩
  | n + 1 => .binary .conjunction (.atom ⟨"[3m(", []⟩) (deep n)

/-- One parenthesis opens at each depth. -/
theorem Formula.exists_opening_deep (n depth : Nat) :
    ∃ before rest, (deep (n + 1)).styledAt true depth =
      before ++ ⟨some (.parenthesis (depth + n)), "("⟩ :: rest := by
  induction n generalizing depth with
  | zero => exact ⟨[], _, rfl⟩
  | succ n ih =>
      obtain ⟨before, rest, heq⟩ := ih (depth + 1)
      rw [Nat.succ_add_eq_add_succ] at heq
      rw [deep, styledAt, heq]
      exact ⟨_, rest ++ Styled.only (.parenthesis depth) ")", by
        rw [← List.append_assoc, List.append_assoc, List.cons_append]⟩

/-- A formula 258 connectives deep, where the depth of a parenthesis goes beyond
    255, a sequent with it and a tree of this sequent. -/
theorem coloured_agrees_with_plain_deep :
    (Formula.deep 258).NamesLack '\x1b' ∧
      withoutColours (Formula.deep 258).styled.coloured = (Formula.deep 258).display ∧
      withoutColours (Sequent.mk [Formula.deep 258] []).styled.coloured =
        (Sequent.mk [Formula.deep 258] []).display ∧
      withoutColours (ProofTree.ofSequent ⟨[Formula.deep 258], []⟩).styled.coloured =
        (ProofTree.ofSequent ⟨[Formula.deep 258], []⟩).outline ∧
      ∃ before rest : Styled,
        (Formula.deep 258).styled = before ++ ⟨some (.parenthesis 256), "("⟩ :: rest ∧
        ∃ (between : Styled) (c : Piece) (after : Styled) (l : Look),
          rest.closing? 0 = some (between, c, after) ∧ l.colour.isSome = true ∧
          (Formula.deep 258).styled.coloured =
            before.coloured ++ (l.start ++ "(" ++ Look.reset) ++ between.coloured ++
              (l.start ++ ")" ++ Look.reset) ++ after.coloured ∧
          lookBehind (before.coloured ++ l.start) = l ∧
          lookBehind (before.coloured ++ (l.start ++ "(" ++ Look.reset) ++ between.coloured ++
            l.start) = l := by
  obtain ⟨hformula, hsequent, htree, hpairs⟩ := coloured_agrees_with_plain
  have hfree : (Formula.deep 258).NamesLack '\x1b' := by decide +kernel
  have hmembers : (Sequent.mk [Formula.deep 258] []).NamesLack '\x1b' :=
    List.forall_mem_singleton.mpr hfree
  have hnodes : (ProofTree.ofSequent ⟨[Formula.deep 258], []⟩).NamesLack '\x1b' := by
    intro u hu
    cases hu with
    | root => exact hmembers
    | child hb _ _ => cases hb
  obtain ⟨before, rest, heq⟩ := Formula.exists_opening_deep 256 0
  rw [Nat.zero_add] at heq
  have hstyled : (Formula.deep 258).styled =
      ((Formula.atom ⟨"[3m(", []⟩).styledAt true 0 ++ Styled.space ++
        Styled.only .operator "&" ++ Styled.space ++ before) ++
          ⟨some (.parenthesis 256), "("⟩ :: rest := by
    rw [List.append_assoc, ← heq]
    rfl
  obtain ⟨between, c, after, l, hclosing, hcolour, htext, hforce⟩ := hpairs _ _ _ _ hstyled rfl
  exact ⟨hfree, hformula _ hfree, hsequent _ hmembers, htree _ hnodes, _, rest, hstyled,
    between, c, after, l, hclosing, hcolour, htext, hforce hfree⟩

end SequentCalculus
