import SequentCalculus.Formula.Basic
import SequentCalculus.Text.Styled

/-! # The canonical display of a formula

    An operand that is itself binary is put in parentheses, any other operand
    and the whole formula are not.  A quantifier and its variable are written
    together and followed by a blank, so `∀x (P<x> & Q)` and `~∃y P<y>`. -/

namespace SequentCalculus

namespace Atom

/-- The predicate, followed by its terms between angle brackets if it has any. -/
def styled (a : Atom) : Styled :=
  match a.terms with
  | [] => Styled.only .predicate a.predicate
  | ts =>
      Styled.only .predicate a.predicate ++ Styled.only .punctuation "<" ++
        Styled.joinWith (Styled.only .punctuation ", ") (ts.map (Styled.only .term)) ++
        Styled.only .punctuation ">"

/-- The canonical text of an atom. -/
def display (a : Atom) : String := a.styled.plain

end Atom

namespace Formula

/-- The text of a formula that stands `depth` parentheses deep.  The flag says
    whether it is an operand, and so parenthesised if it is binary. -/
def styledAt : Formula → (operand : Bool) → (depth : Nat) → Styled
  | atom a, _, _ => a.styled
  | negation p, _, depth => Styled.only .operator "~" ++ p.styledAt true depth
  | binary op p q, false, depth =>
      p.styledAt true depth ++ Styled.space ++ Styled.only .operator op.symbol ++
        Styled.space ++ q.styledAt true depth
  | binary op p q, true, depth =>
      Styled.only (.parenthesis depth) "(" ++ p.styledAt true (depth + 1) ++ Styled.space ++
        Styled.only .operator op.symbol ++ Styled.space ++ q.styledAt true (depth + 1) ++
        Styled.only (.parenthesis depth) ")"
  | quantified k x p, _, depth =>
      Styled.only .quantifier (k.symbol ++ x) ++ Styled.space ++ p.styledAt true depth

/-- The text of a whole formula. -/
def styled (p : Formula) : Styled := p.styledAt false 0

/-- The canonical text of a formula. -/
def display (p : Formula) : String := p.styled.plain

end Formula

end SequentCalculus
