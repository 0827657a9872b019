import Mathlib.Data.Finset.Insert
import Mathlib.Data.Finset.Basic
import SequentCalculus.Proofs.Substitution

/-! # Nameless formulas — substitution without regard to bound names

    What a bound variable is called carries no meaning.  In the nameless form
    of a formula a bound term is the number of quantifiers between it and the
    one that binds it, and only free terms keep their names; two formulas that
    differ in the choice of bound variables have the same nameless form.

    On nameless formulas there is nothing to capture, and substitution is plain
    replacement of free names.  Substitution on formulas does exactly this to
    the nameless form (`Formula.namelessIn_subst`), although it renames bound
    variables on its way.  The free names after a substitution are read off the
    nameless form, one by one and in order (`Formula.names_subst`). -/

namespace SequentCalculus

/-- What a term stands for: the variable of a quantifier around it, the
    innermost having number 0, or a name. -/
inductive Referent
  | bound (i : Nat)
  | free (n : String)
  deriving DecidableEq, Repr

namespace Referent

/-- The same referent, seen from below one more quantifier. -/
def under : Referent → Referent
  | bound i => bound (i + 1)
  | free n => free n

/-- What a term stands for below quantifiers that bind the variables of a
    scope, the innermost first. -/
def of : (scope : List String) → String → Referent
  | [], t => free t
  | x :: scope, t => if t = x then bound 0 else (of scope t).under

/-- Puts the name `w` for the name `x`. -/
def replace (x w : String) : Referent → Referent
  | bound i => bound i
  | free n => free (if n = x then w else n)

/-- The name of what is not bound. -/
def name? : Referent → Option String
  | bound _ => none
  | free n => some n

end Referent

/-- A formula whose bound variables have no names. -/
inductive Nameless
  | atom (predicate : String) (terms : List Referent)
  | negation (p : Nameless)
  | binary (op : Operator) (p q : Nameless)
  | quantified (k : Quantifier) (p : Nameless)
  deriving DecidableEq, Repr

namespace Nameless

/-- Puts the name `w` for every free name `x`. -/
def replace (x w : String) : Nameless → Nameless
  | atom predicate terms => atom predicate (terms.map (Referent.replace x w))
  | negation p => negation (p.replace x w)
  | binary op p q => binary op (p.replace x w) (q.replace x w)
  | quantified k p => quantified k (p.replace x w)

/-- The free names, one entry per occurrence. -/
def names : Nameless → List String
  | atom _ terms => terms.filterMap Referent.name?
  | negation p => p.names
  | binary _ p q => p.names ++ q.names
  | quantified _ p => p.names

end Nameless

namespace Formula

/-- The nameless form of a formula below quantifiers that bind the variables of
    a scope, the innermost first. -/
def namelessIn : Formula → (scope : List String) → Nameless
  | atom a, scope => .atom a.predicate (a.terms.map (Referent.of scope))
  | negation p, scope => .negation (p.namelessIn scope)
  | binary op p q, scope => .binary op (p.namelessIn scope) (q.namelessIn scope)
  | quantified k x p, scope => .quantified k (p.namelessIn (x :: scope))

/-- The nameless form of a formula. -/
def nameless (p : Formula) : Nameless := p.namelessIn []

end Formula

/-! ## Replacing names in nameless formulas -/

namespace Nameless

theorem names_replace (x w : String) (p : Nameless) :
    (p.replace x w).names = p.names.map fun n => if n = x then w else n := by
  induction p with
  | atom predicate terms =>
      simp only [replace, names, List.filterMap_map, List.map_filterMap]
      refine List.filterMap_congr ?_
      intro t _
      cases t <;> rfl
  | negation p ih => exact ih
  | binary op p q ihp ihq => rw [replace, names, names, ihp, ihq, List.map_append]
  | quantified k p ih => exact ih

/-- Replacing a name that does not occur changes nothing. -/
theorem replace_of_not_mem {x w : String} {p : Nameless} (h : x ∉ p.names) :
    p.replace x w = p := by
  induction p with
  | atom predicate terms =>
      rw [replace, List.map_congr_left, List.map_id]
      intro t ht
      cases t with
      | bound i => rfl
      | free n =>
          have hn : n ≠ x := by
            rintro rfl
            exact h (List.mem_filterMap.mpr ⟨_, ht, rfl⟩)
          show Referent.free (if n = x then w else n) = Referent.free n
          rw [if_neg hn]
  | negation p ih => rw [replace, ih h]
  | binary op p q ihp ihq =>
      rw [replace, ihp fun hp => h (List.mem_append_left _ hp),
        ihq fun hq => h (List.mem_append_right _ hq)]
  | quantified k p ih => rw [replace, ih h]

end Nameless

/-! ## Scopes -/

namespace Referent

theorem of_cons_self (x : String) (scope : List String) : of (x :: scope) x = bound 0 :=
  if_pos rfl

/-- A name other than the innermost bound one is looked up further out. -/
theorem of_cons_of_ne {t x : String} (h : t ≠ x) (scope : List String) :
    of (x :: scope) t = (of scope t).under :=
  if_neg h

/-- Two scopes agree on a name if they do so below a common binder. -/
theorem of_cons_congr {x t : String} {us vs : List String} (h : t ≠ x → of us t = of vs t) :
    of (x :: us) t = of (x :: vs) t := by
  by_cases hx : t = x
  · subst hx
    rw [of_cons_self, of_cons_self]
  · rw [of_cons_of_ne hx, of_cons_of_ne hx, h hx]

/-- A term keeps its name exactly if no quantifier around it binds it. -/
theorem name?_of (scope : List String) (t : String) :
    (of scope t).name? = if t ∈ scope then none else some t := by
  induction scope with
  | nil => rfl
  | cons x scope ih =>
      by_cases hx : t = x
      · subst hx
        rw [of_cons_self, if_pos List.mem_cons_self]
        rfl
      · have hunder : ∀ r : Referent, r.under.name? = r.name? := by
          intro r
          cases r <;> rfl
        rw [of_cons_of_ne hx, hunder, ih]
        simp only [List.mem_cons, hx, false_or]

/-- A name outside of the scope is free. -/
theorem of_eq_free {scope : List String} {t : String} (h : t ∉ scope) : of scope t = free t := by
  have hname := name?_of scope t
  rw [if_neg h] at hname
  cases hof : of scope t with
  | bound i =>
      rw [hof] at hname
      cases hname
  | free n =>
      rw [hof] at hname
      rw [Option.some.inj hname]

/-- A variable shows its name if it is free. -/
theorem name?_of_eq_some_iff {scope : List String} {t n : String} :
    (of scope t).name? = some n ↔ t = n ∧ n ∉ scope := by
  rw [name?_of]
  split
  · rename_i h
    constructor
    · intro hnone
      cases hnone
    · rintro ⟨rfl, hn⟩
      exact absurd h hn
  · rename_i h
    constructor
    · intro hsome
      cases hsome
      exact ⟨rfl, h⟩
    · rintro ⟨rfl, -⟩
      rfl

end Referent

namespace Formula

/-- The names that a nameless form keeps are those that its scope does not
    bind. -/
theorem names_namelessIn (p : Formula) (scope : List String) :
    (p.namelessIn scope).names = p.names.filter (· ∉ scope) := by
  induction p generalizing scope with
  | atom a =>
      rw [namelessIn, Nameless.names, List.filterMap_map, ← List.filterMap_eq_filter]
      refine List.filterMap_congr ?_
      intro t _
      show (Referent.of scope t).name? = _
      rw [Referent.name?_of]
      by_cases ht : t ∈ scope
      · simp [Option.guard, ht]
      · simp [Option.guard, ht]
  | negation p ih => exact ih scope
  | binary op p q ihp ihq => rw [namelessIn, Nameless.names, ihp, ihq, names, List.filter_append]
  | quantified k x p ih =>
      rw [namelessIn, Nameless.names, ih, names, List.filter_filter]
      refine List.filter_congr ?_
      intro n _
      simp [Bool.and_comm]

/-- The nameless form depends on what the free names stand for only. -/
theorem namelessIn_congr {p : Formula} {us vs : List String}
    (h : ∀ n ∈ p.names, Referent.of us n = Referent.of vs n) :
    p.namelessIn us = p.namelessIn vs := by
  induction p generalizing us vs with
  | atom a =>
      have hterms : a.terms.map (Referent.of us) = a.terms.map (Referent.of vs) :=
        List.map_congr_left h
      rw [namelessIn, namelessIn, hterms]
  | negation p ih => rw [namelessIn, namelessIn, ih h]
  | binary op p q ihp ihq =>
      rw [namelessIn, namelessIn, ihp fun n hn => h n (List.mem_append_left _ hn),
        ihq fun n hn => h n (List.mem_append_right _ hn)]
  | quantified k x p ih =>
      rw [namelessIn, namelessIn, ih]
      intro n hn
      exact Referent.of_cons_congr fun hx => h n (mem_names_quantified.mpr ⟨hn, hx⟩)

/-! ## Substitution -/

/-- Renaming a bound variable does not show: if `z` does not occur in a scope and
    stands for what `y` stood for, putting it for `y` leaves the nameless form. -/
theorem namelessIn_replaceFree {y z : String} {p : Formula} (hz : z ∉ p.symbols)
    {us vs : List String} (hyz : Referent.of us z = Referent.of vs y)
    (h : ∀ n ∈ p.names, n ≠ y → Referent.of us n = Referent.of vs n) :
    (p.replaceFree y z).namelessIn us = p.namelessIn vs := by
  induction p generalizing us vs with
  | atom a =>
      rw [replaceFree, namelessIn, namelessIn, Atom.replace]
      simp only [List.map_map]
      rw [List.map_congr_left]
      intro t ht
      show Referent.of us (if t = y then z else t) = Referent.of vs t
      -- the new name refers to what the old one did
      by_cases hy : t = y
      · rw [if_pos hy, hyz, hy]
      · rw [if_neg hy, h t ht hy]
  | negation p ih => rw [replaceFree, namelessIn, namelessIn, ih hz hyz h]
  | binary op p q ihp ihq =>
      have hp := ihp (fun hs => hz (List.mem_append_left _ hs)) hyz
        fun n hn => h n (List.mem_append_left _ hn)
      have hq := ihq (fun hs => hz (List.mem_append_right _ hs)) hyz
        fun n hn => h n (List.mem_append_right _ hn)
      rw [replaceFree, namelessIn, namelessIn, hp, hq]
  | quantified k x p ih =>
      obtain ⟨hzx, hzp⟩ := not_or.mp fun hs => hz (List.mem_cons.mpr hs)
      unfold replaceFree
      by_cases hx : x = y
      · -- `y` is bound again here, so nothing is replaced and `y` is not free
        subst hx
        rw [if_pos rfl]
        refine namelessIn_congr ?_
        intro n hn
        exact h n hn (mem_names_quantified.mp hn).2
      · rw [if_neg hx, namelessIn, namelessIn, ih hzp]
        · rw [Referent.of_cons_of_ne hzx, Referent.of_cons_of_ne (Ne.symm hx), hyz]
        · intro n hn hny
          exact Referent.of_cons_congr fun hnx => h n (mem_names_quantified.mpr ⟨hn, hnx⟩) hny

-- `∀x ∃y R<x, y>` and `∀z ∃y R<z, y>`
example :
    nameless (.quantified .universal "x" (.quantified .existential "y" (.atom ⟨"R", ["x", "y"]⟩))) =
      nameless (.quantified .universal "z"
        (.quantified .existential "y" (.atom ⟨"R", ["z", "y"]⟩))) := by
  decide

/-- Substitution replaces a free name in the nameless form and does nothing else.
    In a scope this holds of names that the scope does not bind. -/
theorem namelessIn_subst {x w : String} {p : Formula} :
    ∀ scope : List String, x ∉ scope → (x ∈ p.names → w ∉ scope) →
      (p.subst x w).namelessIn scope = (p.namelessIn scope).replace x w := by
  fun_induction subst x w p with
  | case1 a =>
      intro scope hx hw
      rw [namelessIn, namelessIn, Nameless.replace, Atom.replace]
      simp only [List.map_map]
      rw [List.map_congr_left]
      intro t ht
      show Referent.of scope (if t = x then w else t) = (Referent.of scope t).replace x w
      by_cases htx : t = x
      · subst htx
        rw [if_pos rfl, Referent.of_eq_free hx, Referent.of_eq_free (hw ht)]
        show Referent.free w = Referent.free (if t = t then w else t)
        rw [if_pos rfl]
      · rw [if_neg htx]
        cases hof : Referent.of scope t with
        | bound i => rfl
        | free n =>
            obtain ⟨rfl, -⟩ := Referent.name?_of_eq_some_iff.mp (congrArg Referent.name? hof)
            show Referent.free t = Referent.free (if t = x then w else t)
            rw [if_neg htx]
  | case2 p ih =>
      intro scope hx hw
      rw [namelessIn, namelessIn, Nameless.replace, ih scope hx hw]
  | case3 op p q ihp ihq =>
      intro scope hx hw
      rw [namelessIn, namelessIn, Nameless.replace,
        ihp scope hx fun h => hw (List.mem_append_left _ h),
        ihq scope hx fun h => hw (List.mem_append_right _ h)]
  | case4 k p =>
      -- `x` is bound again, so the nameless form does not have the name `x`
      intro scope hx hw
      rw [Nameless.replace_of_not_mem]
      rw [names_namelessIn]
      intro hmem
      exact (mem_names_quantified.mp (List.mem_filter.mp hmem).1).2 rfl
  | case5 k y p hyx hc z ih =>
      -- the variable is called `z` now, which is neither `x` nor `w` nor in the scope
      intro scope hx hw
      obtain ⟨rfl, hxp⟩ := captures_eq_true.mp hc
      have hz : z ∉ x :: y :: p.symbols := freshVariant_not_mem y _
      obtain ⟨hzx, hzy, hzp⟩ : z ≠ x ∧ z ≠ y ∧ z ∉ p.symbols := by simpa using hz
      have hys : y ∉ scope := hw (mem_names_quantified.mpr ⟨hxp, Ne.symm hyx⟩)
      have hrenamed : (p.replaceFree y z).namelessIn (z :: scope) = p.namelessIn (y :: scope) := by
        refine namelessIn_replaceFree hzp ?_ ?_
        · rw [Referent.of_cons_self, Referent.of_cons_self]
        · intro n hn hny
          have hnz : n ≠ z := by
            rintro rfl
            exact hzp (mem_symbols_of_mem_names hn)
          rw [Referent.of_cons_of_ne hnz, Referent.of_cons_of_ne hny]
      rw [namelessIn, namelessIn, Nameless.replace, ih, hrenamed]
      · simp [Ne.symm hzx, hx]
      · simp [Ne.symm hzy, hys]
  | case6 k y p hyx hc ih =>
      intro scope hx hw
      rw [namelessIn, namelessIn, Nameless.replace, ih]
      · simp [Ne.symm hyx, hx]
      · -- below the binder `x` may be free only if the binder is not `w`
        intro hxp
        have hwy : w ≠ y := fun h => hc (captures_eq_true.mpr ⟨h.symm, hxp⟩)
        have hws := hw (mem_names_quantified.mpr ⟨hxp, Ne.symm hyx⟩)
        simp [hwy, hws]

/-- The names of the nameless form are the free names. -/
theorem names_nameless (p : Formula) : p.nameless.names = p.names := by
  rw [nameless, names_namelessIn]
  simp

/-- The free names after a substitution, one by one and in order. -/
theorem names_subst (p : Formula) (x w : String) :
    (p.subst x w).names = p.names.map fun n => if n = x then w else n := by
  have hsubst : (p.subst x w).nameless = p.nameless.replace x w :=
    namelessIn_subst [] (by simp) (by simp)
  rw [← names_nameless, hsubst, Nameless.names_replace, names_nameless]

/-- The free names after a substitution: `x` is gone and `w` has come in if `x`
    was free. -/
theorem mem_names_subst {x w n : String} {p : Formula} :
    n ∈ (p.subst x w).names ↔ (n ∈ p.names ∧ n ≠ x) ∨ (n = w ∧ x ∈ p.names) := by
  rw [names_subst]
  exact mem_map_replace

/-- **Substitution captures nothing.**  It is replacement of a free name in the nameless
    form; the set of free names loses `x` and gains `w` if `x` is among them, and stays
    as it is otherwise. -/
theorem nameless_subst (p : Formula) (x w : String) :
    (p.subst x w).nameless = p.nameless.replace x w ∧
      (p.subst x w).names.toFinset =
        if x ∈ p.names then insert w (p.names.toFinset.erase x) else p.names.toFinset := by
  refine ⟨namelessIn_subst [] (by simp) (by simp), ?_⟩
  ext n
  rw [List.mem_toFinset, mem_names_subst]
  by_cases hx : x ∈ p.names
  · rw [if_pos hx, Finset.mem_insert, Finset.mem_erase, List.mem_toFinset]
    constructor
    · rintro (⟨hn, hnx⟩ | ⟨hnw, -⟩)
      · exact Or.inr ⟨hnx, hn⟩
      · exact Or.inl hnw
    · rintro (hnw | ⟨hnx, hn⟩)
      · exact Or.inr ⟨hnw, hx⟩
      · exact Or.inl ⟨hn, hnx⟩
  · rw [if_neg hx, List.mem_toFinset]
    constructor
    · rintro (⟨hn, -⟩ | ⟨-, hxp⟩)
      · exact hn
      · exact absurd hxp hx
    · intro hn
      refine Or.inl ⟨hn, ?_⟩
      rintro rfl
      exact hx hn

end Formula

end SequentCalculus
