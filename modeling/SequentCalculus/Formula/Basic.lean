/-! # Formulas — atoms, connectives and quantifiers

    A formula is an atom (a predicate applied to a list of individual terms), a
    negation, a binary compound or a quantified formula.  Bound variables and
    free names share one namespace of strings, so the two notions that matter
    for substitution are read off here:

    * `Formula.names` — the terms that occur free;
    * `Formula.symbols` — every term and every bound variable.

    Two sizes are used: `Formula.complexity` is the nesting depth of the
    connectives and `Formula.connectives` is their number.  Decomposition
    removes one connective at a time, so the second is the measure on which
    growth of a proof tree terminates. -/

namespace SequentCalculus

/-- A predicate applied to individual terms; without terms it is a
    propositional letter. -/
structure Atom where
  predicate : String
  terms : List String
  deriving DecidableEq, Repr, Inhabited

/-- The binary connectives. -/
inductive Operator
  | conjunction
  | disjunction
  | conditional
  deriving DecidableEq, Repr

/-- The two quantifiers. -/
inductive Quantifier
  | universal
  | existential
  deriving DecidableEq, Repr

/-- A formula of first-order logic without function symbols. -/
inductive Formula
  | atom (a : Atom)
  | negation (p : Formula)
  | binary (op : Operator) (p q : Formula)
  | quantified (k : Quantifier) (x : String) (p : Formula)
  deriving DecidableEq, Repr

instance : Inhabited Formula := ⟨.atom default⟩

/-- The main connective of a compound formula. -/
inductive Connective
  | negation
  | binary (op : Operator)
  | quantifier (k : Quantifier)
  deriving DecidableEq, Repr

namespace Operator

/-- How a binary connective is written. -/
def symbol : Operator → String
  | conjunction => "&"
  | disjunction => "v"
  | conditional => "->"

end Operator

namespace Quantifier

/-- How a quantifier is written. -/
def symbol : Quantifier → String
  | universal => "∀"
  | existential => "∃"

end Quantifier

namespace Connective

/-- How a connective is written. -/
def symbol : Connective → String
  | negation => "~"
  | binary op => op.symbol
  | quantifier k => k.symbol

/-- Every connective, in the order used wherever connectives are compared. -/
def all : List Connective :=
  [.negation, .binary .conjunction, .binary .disjunction, .binary .conditional,
    .quantifier .universal, .quantifier .existential]

/-- The connective written `s`, if there is one. -/
def ofSymbol? (s : String) : Option Connective :=
  all.find? (·.symbol == s)

/-- Whether the connective binds a variable. -/
def isQuantifier : Connective → Bool
  | quantifier _ => true
  | _ => false

end Connective

namespace Formula

/-- The main connective; atoms have none. -/
def connective? : Formula → Option Connective
  | atom _ => none
  | negation _ => some .negation
  | binary op _ _ => some (.binary op)
  | quantified k _ _ => some (.quantifier k)

def isAtom : Formula → Bool
  | atom _ => true
  | _ => false

/-- A formula is complex when it is not an atom. -/
def isComplex (p : Formula) : Bool := !p.isAtom

def isBinary : Formula → Bool
  | binary _ _ _ => true
  | _ => false

/-- Nesting depth of the connectives. -/
def complexity : Formula → Nat
  | atom _ => 0
  | negation p => 1 + p.complexity
  | binary _ p q => 1 + max p.complexity q.complexity
  | quantified _ _ p => 1 + p.complexity

/-- Number of connectives, quantifiers included. -/
def connectives : Formula → Nat
  | atom _ => 0
  | negation p => 1 + p.connectives
  | binary _ p q => 1 + p.connectives + q.connectives
  | quantified _ _ p => 1 + p.connectives

/-- The terms that occur free, one entry per occurrence. -/
def names : Formula → List String
  | atom a => a.terms
  | negation p => p.names
  | binary _ p q => p.names ++ q.names
  | quantified _ x p => p.names.filter (· ≠ x)

/-- Every term and every bound variable, one entry per occurrence. -/
def symbols : Formula → List String
  | atom a => a.terms
  | negation p => p.symbols
  | binary _ p q => p.symbols ++ q.symbols
  | quantified _ x p => x :: p.symbols

theorem isComplex_eq_false_iff {p : Formula} :
    p.isComplex = false ↔ ∃ a, p = atom a := by
  cases p <;> simp [isComplex, isAtom]

end Formula

end SequentCalculus
