import SequentCalculus.Formula.Display
import SequentCalculus.Sequent.Basic

/-! # The canonical display of a sequent

    The members of each side are separated by `, ` and the sides by `; `.  The
    blank after the semicolon is written even when the consequent is empty. -/

namespace SequentCalculus

/-- The members of one side, separated by commas. -/
def styledSide (ps : List Formula) : Styled :=
  Styled.joinWith (Styled.only .punctuation ", ") (ps.map Formula.styled)

namespace Sequent

/-- The text of a sequent. -/
def styled (s : Sequent) : Styled :=
  styledSide s.antecedent ++ Styled.only .punctuation ";" ++ Styled.space ++
    styledSide s.consequent

/-- The canonical text of a sequent. -/
def display (s : Sequent) : String := s.styled.plain

end Sequent

end SequentCalculus
