import SequentCalculus.Formula.Basic

/-! # The order on formulas

    Formulas are compared first by their outermost form — atoms, negations,
    conjunctions, disjunctions, conditionals, universal and existential
    formulas, in this order — and then part by part from left to right.  Names
    are compared by code points, lists lexicographically. -/

namespace SequentCalculus

namespace Atom

/-- Predicates first, then the term lists. -/
def compare (a b : Atom) : Ordering :=
  (Ord.compare a.predicate b.predicate).then (List.compareLex Ord.compare a.terms b.terms)

end Atom

namespace Connective

/-- Position of a connective in `Connective.all`. -/
def rank : Connective → Nat
  | negation => 0
  | binary .conjunction => 1
  | binary .disjunction => 2
  | binary .conditional => 3
  | quantifier .universal => 4
  | quantifier .existential => 5

end Connective

namespace Formula

/-- Position of a formula's outermost form; atoms come first. -/
def rank (p : Formula) : Nat :=
  match p.connective? with
  | none => 0
  | some c => c.rank + 1

/-- The outermost forms first, then the parts from left to right. -/
def compare : Formula → Formula → Ordering
  | atom a, atom b => a.compare b
  | negation p, negation q => p.compare q
  | binary op p p', binary op' q q' =>
      (Ord.compare (binary op p p').rank (binary op' q q').rank).then
        ((p.compare q).then (p'.compare q'))
  | quantified k x p, quantified k' y q =>
      (Ord.compare (quantified k x p).rank (quantified k' y q).rank).then
        ((Ord.compare x y).then (p.compare q))
  | p, q => Ord.compare p.rank q.rank

/-- Sorts a list of formulas, smallest first. -/
def sort (ps : List Formula) : List Formula :=
  ps.mergeSort fun p q => (p.compare q).isLE

end Formula

/-- Drops every member that equals its predecessor. -/
def dropRepeats {α : Type} [DecidableEq α] : List α → List α
  | [] => []
  | [a] => [a]
  | a :: b :: rest => if a = b then dropRepeats (b :: rest) else a :: dropRepeats (b :: rest)

/-- The distinct members of a list of names, in order. -/
def sortedNames (names : List String) : List String :=
  dropRepeats (names.mergeSort fun a b => (compare a b).isLE)

end SequentCalculus
