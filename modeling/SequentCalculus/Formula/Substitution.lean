import SequentCalculus.Formula.Basic

/-! # Substitution — replacing a free name without capture

    `Formula.subst x w p` puts the name `w` for every free occurrence of `x`.
    When a quantifier in `p` binds `w` itself and `x` is free below it, the
    bound variable is renamed first: to the first of `y_1`, `y_2`, … that is
    neither `x` nor `w` nor a symbol of the scope.

    The renaming introduces a variable that does not occur in the scope at all,
    so it needs no care of its own: `Formula.replaceFree` replaces free
    occurrences blindly.  Neither operation changes the number of connectives,
    which is why the recursion of `subst` through a renamed scope ends. -/

namespace SequentCalculus

/-- The `n`-th numbered variant of a variable. -/
def numbered (x : String) (n : Nat) : String := x ++ "_" ++ toString n

/-- The numbered variant of `x` with the least number from 1 on that is not in
    `taken`.  Among `taken.length + 1` different variants one is always free. -/
def freshVariant (x : String) (taken : List String) : String :=
  match (List.range' 1 (taken.length + 1)).find? (fun n => numbered x n ∉ taken) with
  | some n => numbered x n
  | none => x

namespace Atom

/-- Puts `w` for every occurrence of the term `x`. -/
def replace (x w : String) (a : Atom) : Atom :=
  { a with terms := a.terms.map fun t => if t = x then w else t }

end Atom

namespace Formula

/-- Puts `w` for every free occurrence of `x`, with no regard to quantifiers
    that bind `w`. -/
def replaceFree (x w : String) : Formula → Formula
  | atom a => atom (a.replace x w)
  | negation p => negation (p.replaceFree x w)
  | binary op p q => binary op (p.replaceFree x w) (q.replaceFree x w)
  | quantified k y p => if y = x then quantified k y p else quantified k y (p.replaceFree x w)

@[simp] theorem connectives_replaceFree (x w : String) (p : Formula) :
    (p.replaceFree x w).connectives = p.connectives := by
  induction p with
  | atom a => rfl
  | negation p ih => simp [replaceFree, connectives, ih]
  | binary op p q ihp ihq => simp [replaceFree, connectives, ihp, ihq]
  | quantified k y p ih =>
      by_cases h : y = x
      · simp [replaceFree, h]
      · simp [replaceFree, h, connectives, ih]

/-- Whether substituting `w` for `x` under a quantifier that binds `y` would
    capture `w`. -/
def captures (x w y : String) (scope : Formula) : Bool :=
  y = w && scope.names.contains x

/-- Puts the name `w` for every free occurrence of `x`, renaming a bound
    variable exactly where it would capture `w`. -/
def subst (x w : String) : Formula → Formula
  | atom a => atom (a.replace x w)
  | negation p => negation (p.subst x w)
  | binary op p q => binary op (p.subst x w) (q.subst x w)
  | quantified k y p =>
      if y = x then quantified k y p
      else if captures x w y p then
        let z := freshVariant y (x :: w :: p.symbols)
        quantified k z ((p.replaceFree y z).subst x w)
      else quantified k y (p.subst x w)
termination_by p => p.connectives
decreasing_by all_goals simp only [connectives, connectives_replaceFree]; omega

@[simp] theorem connectives_subst (x w : String) (p : Formula) :
    (p.subst x w).connectives = p.connectives := by
  fun_induction subst x w p with
  | case1 a => rfl
  | case2 p ih => simp [connectives, ih]
  | case3 op p q ihp ihq => simp [connectives, ihp, ihq]
  | case4 => rfl
  | case5 k y p _ _ z ih => simp [connectives, ih]
  | case6 k y p _ _ ih => simp [connectives, ih]

end Formula

end SequentCalculus
