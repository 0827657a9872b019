import SequentCalculus.Error
import SequentCalculus.Formula.Order
import SequentCalculus.Grammar.Token

/-! # Witnesses — the names put for bound variables

    A supply holds the names given for a proof, each once, and those already
    used on the way from the root.  A quantifier may take any supplied name
    that is neither used nor free in the sequent; when there is none, it takes
    a placeholder. -/

namespace SequentCalculus

/-- Names for quantifiers: those supplied, in order, and those used above. -/
structure Supply where
  names : List String
  used : List String
  deriving DecidableEq, Repr

/-- The name taken when no supplied name is left. -/
def placeholder : String := "NONE"

/-- Keeps the first of equal members. -/
def keepFirst {α : Type} [DecidableEq α] : List α → List α
  | [] => []
  | a :: as => a :: (keepFirst as).filter (· ≠ a)

namespace Supply

/-- The supply without names. -/
def empty : Supply := ⟨[], []⟩

/-- The supply of a list of names, all of which have to be readable as terms. -/
def ofNames (names : List String) : Except Error Supply :=
  match names.find? fun n => !isTerm n with
  | some n => .error (.invalidWitness n)
  | none => .ok ⟨keepFirst names, []⟩

/-- The supplied names that a quantifier of the sequent may still take. -/
def fresh (supply : Supply) (s : Sequent) : List String :=
  let free := s.names
  supply.names.filter fun n => !(free.contains n) && !(supply.used.contains n)

/-- The names that a quantifier of the sequent is tried with. -/
def candidates (supply : Supply) (s : Sequent) : List String :=
  match supply.fresh s with
  | [] => [placeholder]
  | names => names

/-- The supply below a quantifier that took a name. -/
def descend (supply : Supply) (w : String) : Supply :=
  { supply with used := w :: supply.used }

/-- The used names, each once, in order. -/
def usedNames (supply : Supply) : List String := sortedNames supply.used

end Supply

end SequentCalculus
