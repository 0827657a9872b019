import SequentCalculus.Formula.Order
import SequentCalculus.Sequent.Basic

/-! # The order on sequents and on rule tags

    Sequents are compared by their antecedents and then by their consequents,
    both lexicographically.  The tag of an atomic sequent comes before every
    rule; rules are compared by side and then by connective. -/

namespace SequentCalculus

namespace Sequent

/-- Antecedents first, then consequents. -/
def compare (s t : Sequent) : Ordering :=
  (List.compareLex Formula.compare s.antecedent t.antecedent).then
    (List.compareLex Formula.compare s.consequent t.consequent)

/-- Sorts a list of sequents, smallest first. -/
def sort (ss : List Sequent) : List Sequent :=
  ss.mergeSort fun s t => (s.compare t).isLE

end Sequent

/-- The antecedent comes first. -/
def Side.rank : Side → Nat
  | antecedent => 0
  | consequent => 1

namespace Tag

/-- The atomic tag first, then by side and connective. -/
def compare : Tag → Tag → Ordering
  | identity, identity => .eq
  | identity, rule _ _ => .lt
  | rule _ _, identity => .gt
  | rule s c, rule t d => (Ord.compare s.rank t.rank).then (Ord.compare c.rank d.rank)

/-- Sorts a list of tags, smallest first. -/
def sort (ts : List Tag) : List Tag :=
  ts.mergeSort fun s t => (s.compare t).isLE

end Tag

end SequentCalculus
