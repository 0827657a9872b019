import SequentCalculus.Formula.Substitution

/-! # Sequents — two ordered lists of formulas

    A sequent says that the members of its antecedent together entail one of
    the members of its consequent.  Both sides are lists: the order of the
    members and their repetitions are kept by every operation, because the
    order decides which formula is decomposed next.

    `Sequent.principal?` picks that formula — the leftmost compound one, the
    antecedent before the consequent — and `Sequent.tag` names the rule that
    belongs to it. -/

namespace SequentCalculus

/-- A side of a sequent. -/
inductive Side
  | antecedent
  | consequent
  deriving DecidableEq, Repr

namespace Side

/-- The name of a side in configurations and messages. -/
def key : Side → String
  | antecedent => "ant"
  | consequent => "con"

/-- The letter that marks a side in a rule tag. -/
def letter : Side → String
  | antecedent => "L"
  | consequent => "R"

/-- The side named `s`, if there is one. -/
def ofKey? (s : String) : Option Side :=
  [antecedent, consequent].find? (·.key == s)

/-- The other side. -/
def flip : Side → Side
  | antecedent => consequent
  | consequent => antecedent

end Side

/-- The name of an inference step: none for an atomic sequent, and otherwise
    the side and the connective it takes apart. -/
inductive Tag
  | identity
  | rule (side : Side) (c : Connective)
  deriving DecidableEq, Repr

/-- The text of a tag: `Ax`, or the letter of the side and the connective. -/
def Tag.text : Tag → String
  | identity => "Ax"
  | rule side c => side.letter ++ c.symbol

/-- The sum of several numbers. -/
def total : List Nat → Nat
  | [] => 0
  | n :: ns => n + total ns

@[simp] theorem total_nil : total [] = 0 := rfl

@[simp] theorem total_cons (n : Nat) (ns : List Nat) : total (n :: ns) = n + total ns := rfl

@[simp] theorem total_append (ms ns : List Nat) : total (ms ++ ns) = total ms + total ns := by
  induction ms with
  | nil => simp
  | cons m ms ih =>
      simp only [List.cons_append, total_cons, ih]
      omega

/-- A sequent with an ordered antecedent and an ordered consequent. -/
structure Sequent where
  antecedent : List Formula
  consequent : List Formula
  deriving DecidableEq, Repr

namespace Sequent

/-- The sequent without members. -/
def empty : Sequent := ⟨[], []⟩

instance : Inhabited Sequent := ⟨empty⟩

/-- The sequent with the given members on one side only. -/
def onSide : Side → List Formula → Sequent
  | .antecedent, ps => ⟨ps, []⟩
  | .consequent, ps => ⟨[], ps⟩

/-- The members on one side. -/
def side (s : Sequent) : Side → List Formula
  | .antecedent => s.antecedent
  | .consequent => s.consequent

/-- The sequent with its sides exchanged. -/
def swap (s : Sequent) : Sequent := ⟨s.consequent, s.antecedent⟩

/-- All members, the antecedent first. -/
def members (s : Sequent) : List Formula := s.antecedent ++ s.consequent

/-- All members with their sides, the antecedent first. -/
def sidedMembers (s : Sequent) : List (Side × Formula) :=
  s.antecedent.map (Side.antecedent, ·) ++ s.consequent.map (Side.consequent, ·)

/-- Number of members. -/
def length (s : Sequent) : Nat := s.antecedent.length + s.consequent.length

def isEmpty (s : Sequent) : Bool := s.antecedent.isEmpty && s.consequent.isEmpty

/-- Sum of the nesting depths of the members. -/
def complexity (s : Sequent) : Nat := total (s.members.map Formula.complexity)

/-- Number of connectives in all members together. -/
def connectives (s : Sequent) : Nat := total (s.members.map Formula.connectives)

/-- Whether every member is an atom. -/
def isAtomic (s : Sequent) : Bool := s.members.all Formula.isAtom

/-- Whether some atom stands on both sides. -/
def isIdentity (s : Sequent) : Bool :=
  s.antecedent.any fun p => p.isAtom && s.consequent.contains p

/-- The names that occur free in some member, one entry per occurrence. -/
def names (s : Sequent) : List String := s.members.flatMap Formula.names

/-- The members of both sequents, those of the first before those of the second. -/
def mix (s t : Sequent) : Sequent :=
  ⟨s.antecedent ++ t.antecedent, s.consequent ++ t.consequent⟩

/-- The members of several sequents, in the order of the list. -/
def mixAll (ss : List Sequent) : Sequent := ss.foldl mix empty

/-- The sequent without one member, if there is a member at that place. -/
def remove? (s : Sequent) (side : Side) (index : Nat) : Option Sequent :=
  if index < (s.side side).length then
    some (match side with
      | .antecedent => { s with antecedent := s.antecedent.eraseIdx index }
      | .consequent => { s with consequent := s.consequent.eraseIdx index })
  else none

end Sequent

/-- A list taken apart at its first compound formula. -/
structure Occurrence where
  before : List Formula
  formula : Formula
  after : List Formula
  deriving DecidableEq, Repr

/-- Splits a list at its first compound formula. -/
def splitAtComplex : List Formula → Option Occurrence
  | [] => none
  | p :: ps =>
      if p.isComplex then some ⟨[], p, ps⟩
      else (splitAtComplex ps).map fun o => { o with before := p :: o.before }

/-- The compound formula of a sequent that is decomposed next: where it stands
    and what is left of the sequent without it. -/
structure Principal where
  side : Side
  index : Nat
  formula : Formula
  context : Sequent
  deriving DecidableEq, Repr

namespace Sequent

/-- The leftmost compound formula, the antecedent before the consequent. -/
def principal? (s : Sequent) : Option Principal :=
  match splitAtComplex s.antecedent with
  | some o => some ⟨.antecedent, o.before.length, o.formula, ⟨o.before ++ o.after, s.consequent⟩⟩
  | none =>
      match splitAtComplex s.consequent with
      | some o =>
          some ⟨.consequent, o.before.length, o.formula, ⟨s.antecedent, o.before ++ o.after⟩⟩
      | none => none

/-- The name of the rule that decomposes the sequent. -/
def tag (s : Sequent) : Tag :=
  match s.principal? with
  | none => .identity
  | some m =>
      match m.formula.connective? with
      | none => .identity
      | some c => .rule m.side c

@[simp] theorem connectives_mk (xs ys : List Formula) :
    connectives ⟨xs, ys⟩ =
      total (xs.map Formula.connectives) + total (ys.map Formula.connectives) := by
  simp [connectives, members]

@[simp] theorem connectives_mix (s t : Sequent) :
    (s.mix t).connectives = s.connectives + t.connectives := by
  simp [connectives, members, mix]
  omega

@[simp] theorem connectives_onSide (side : Side) (ps : List Formula) :
    (onSide side ps).connectives = total (ps.map Formula.connectives) := by
  cases side <;> simp [onSide]

end Sequent

/-- Splitting keeps the members and their order. -/
theorem eq_of_splitAtComplex {ps : List Formula} {o : Occurrence}
    (h : splitAtComplex ps = some o) :
    ps = o.before ++ o.formula :: o.after ∧ o.formula.isComplex = true := by
  induction ps generalizing o with
  | nil => exact nomatch h
  | cons p ps ih =>
      unfold splitAtComplex at h
      split at h
      · cases h
        exact ⟨rfl, by assumption⟩
      · obtain ⟨o', ho', rfl⟩ := Option.map_eq_some_iff.1 h
        obtain ⟨h1, h2⟩ := ih ho'
        exact ⟨by simp [← h1], h2⟩

/-- The principal formula and its context share the connectives of the sequent. -/
theorem Sequent.connectives_principal {s : Sequent} {m : Principal}
    (h : s.principal? = some m) :
    s.connectives = m.formula.connectives + m.context.connectives := by
  obtain ⟨xs, ys⟩ := s
  unfold Sequent.principal? at h
  split at h
  · rename_i o ho
    cases h
    obtain ⟨h1, -⟩ := eq_of_splitAtComplex ho
    simp only at h1
    simp [h1]
    omega
  · split at h
    · rename_i o ho
      cases h
      obtain ⟨h1, -⟩ := eq_of_splitAtComplex ho
      simp only at h1
      simp [h1]
      omega
    · exact nomatch h

end SequentCalculus
