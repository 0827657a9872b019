import Mathlib.Logic.Function.Basic
import SequentCalculus.Proofs.Decomposition
import SequentCalculus.Proofs.Substitution

/-! # Truth in first-order structures

    A structure gives a domain of individuals and says of which lists of
    individuals each predicate holds; an assignment gives every name an
    individual.  Bound variables and free names share one namespace, so a
    quantifier is read by changing the assignment at its variable.

    Two lemmas carry everything about names: truth depends on the individuals
    of the free names only (`Formula.holds_congr`), and substituting a name is
    changing the assignment (`Formula.holds_subst`).

    A sequent holds when one of its members speaks for it — a false one of the
    antecedent or a true one of the consequent.  Read so, a sequent is a
    disjunction over its members with their sides, and each rule restates the
    truth of its principal formula by its premises (`Inference.reads_of`). -/

namespace SequentCalculus

universe u

/-- A first-order structure over a domain: the lists of individuals of which
    each predicate holds. -/
structure Interpretation (D : Type u) where
  holds : String → List D → Prop

def Operator.Holds : Operator → Prop → Prop → Prop
  | conjunction, P, Q => P ∧ Q
  | disjunction, P, Q => P ∨ Q
  | conditional, P, Q => P → Q

def Quantifier.Holds {D : Type u} : Quantifier → (D → Prop) → Prop
  | universal, P => ∀ d, P d
  | existential, P => ∃ d, P d

/-- A side speaks for a sequent by a true member of the consequent or a false
    one of the antecedent. -/
def Side.Supports : Side → Prop → Prop
  | antecedent, P => ¬ P
  | consequent, P => P

variable {D : Type u} {I : Interpretation D} {v v' : String → D}

/-- To replace a name is to assign to it what the other has. -/
theorem Atom.map_terms_replace (x w : String) (a : Atom) :
    (a.replace x w).terms.map v = a.terms.map (Function.update v x (v w)) := by
  simp only [Atom.replace, List.map_map]
  refine List.map_congr_left fun t _ => ?_
  by_cases h : t = x
  · simp [h]
  · simp [h]

namespace Formula

/-- Truth of a formula under an assignment of individuals to names. -/
def Holds (I : Interpretation D) : Formula → (String → D) → Prop
  | atom a, v => I.holds a.predicate (a.terms.map v)
  | negation p, v => ¬ p.Holds I v
  | binary op p q, v => op.Holds (p.Holds I v) (q.Holds I v)
  | quantified k x p, v => k.Holds fun d => p.Holds I (Function.update v x d)

theorem holds_quantified_congr {k : Quantifier} {x y : String} {p q : Formula}
    (h : ∀ d, p.Holds I (Function.update v x d) ↔ q.Holds I (Function.update v' y d)) :
    (quantified k x p).Holds I v ↔ (quantified k y q).Holds I v' := by
  have heq : (fun d => p.Holds I (Function.update v x d)) =
      fun d => q.Holds I (Function.update v' y d) := funext fun d => propext (h d)
  show k.Holds _ ↔ k.Holds _
  rw [heq]

/-- Truth depends on the individuals of the free names only. -/
theorem holds_congr {p : Formula} (h : ∀ n ∈ p.names, v n = v' n) :
    p.Holds I v ↔ p.Holds I v' := by
  induction p generalizing v v' with
  | atom a =>
      have hmap : a.terms.map v = a.terms.map v' := List.map_congr_left h
      show I.holds _ _ ↔ I.holds _ _
      rw [hmap]
  | negation p ih => exact not_congr (ih h)
  | binary op p q ihp ihq =>
      have hp := propext (ihp fun n hn => h n (List.mem_append_left _ hn))
      have hq := propext (ihq fun n hn => h n (List.mem_append_right _ hn))
      show op.Holds _ _ ↔ op.Holds _ _
      rw [hp, hq]
  | quantified k x p ih =>
      refine holds_quantified_congr fun d => ih fun n hn => ?_
      -- the bound name has the same individual on both sides
      by_cases hx : n = x
      · subst hx
        rw [Function.update_self, Function.update_self]
      · rw [Function.update_of_ne hx, Function.update_of_ne hx]
        exact h n (mem_names_quantified.mpr ⟨hn, hx⟩)

/-- Replacing a free name blindly, by one that does not occur, changes the
    assignment. -/
theorem holds_replaceFree {x z : String} {p : Formula} (hz : z ∉ p.symbols) :
    (p.replaceFree x z).Holds I v ↔ p.Holds I (Function.update v x (v z)) := by
  induction p generalizing v with
  | atom a =>
      show I.holds _ _ ↔ I.holds _ _
      rw [Atom.map_terms_replace]
      rfl
  | negation p ih => exact not_congr (ih hz)
  | binary op p q ihp ihq =>
      have hp := propext (ihp (v := v) fun h => hz (List.mem_append_left _ h))
      have hq := propext (ihq (v := v) fun h => hz (List.mem_append_right _ h))
      show op.Holds _ _ ↔ op.Holds _ _
      rw [hp, hq]
  | quantified k y p ih =>
      obtain ⟨hzy, hzp⟩ := not_or.mp fun h => hz (List.mem_cons.mpr h)
      unfold replaceFree
      by_cases hy : y = x
      · -- the name is bound here, so its assignment does not matter
        subst hy
        rw [if_pos rfl]
        refine holds_quantified_congr fun d => ?_
        rw [Function.update_idem]
      · rw [if_neg hy]
        refine holds_quantified_congr fun d => ?_
        rw [ih hzp, Function.update_of_ne hzy, Function.update_comm hy]

/-- Substituting a name is changing the assignment: no occurrence is captured. -/
theorem holds_subst {x w : String} {p : Formula} :
    ∀ v, (p.subst x w).Holds I v ↔ p.Holds I (Function.update v x (v w)) := by
  fun_induction subst x w p with
  | case1 a =>
      intro v
      show I.holds _ _ ↔ I.holds _ _
      rw [Atom.map_terms_replace]
      rfl
  | case2 p ih => exact fun v => not_congr (ih v)
  | case3 op p q ihp ihq =>
      intro v
      show op.Holds _ _ ↔ op.Holds _ _
      rw [propext (ihp v), propext (ihq v)]
  | case4 k p =>
      intro v
      refine holds_quantified_congr fun d => ?_
      rw [Function.update_idem]
  | case5 k y p hyx hc z ih =>
      -- the binder `w` becomes `z`, which is neither `x` nor `w` nor in the scope
      intro v
      have hz : z ∉ x :: w :: p.symbols := freshVariant_not_mem y _
      obtain ⟨hzx, hzw, hzp⟩ : z ≠ x ∧ z ≠ w ∧ z ∉ p.symbols := by simpa using hz
      refine holds_quantified_congr fun d => ?_
      rw [ih, holds_replaceFree hzp, Function.update_of_ne (Ne.symm hzw),
        Function.update_of_ne hzx, Function.update_self]
      refine holds_congr fun n hn => ?_
      have hnz : n ≠ z := fun h => hzp (mem_symbols_of_mem_names (h ▸ hn))
      by_cases hny : n = y
      · subst hny
        rw [Function.update_self, Function.update_self]
      · rw [Function.update_of_ne hny, Function.update_of_ne hny]
        by_cases hnx : n = x
        · subst hnx
          rw [Function.update_self, Function.update_self]
        · rw [Function.update_of_ne hnx, Function.update_of_ne hnx, Function.update_of_ne hnz]
  | case6 k y p hyx hc ih =>
      intro v
      refine holds_quantified_congr fun d => ?_
      rw [ih]
      refine holds_congr fun n hn => ?_
      by_cases hnx : n = x
      · -- `x` is free below the binder, which therefore does not bind `w`
        subst hnx
        have hwy : w ≠ y := fun h => hc (captures_eq_true.mpr ⟨h.symm, hn⟩)
        rw [Function.update_self, Function.update_of_ne hwy,
          Function.update_of_ne (Ne.symm hyx), Function.update_self]
      · rw [Function.update_of_ne hnx]
        by_cases hny : n = y
        · subst hny
          rw [Function.update_self, Function.update_self]
        · rw [Function.update_of_ne hny, Function.update_of_ne hny, Function.update_of_ne hnx]

end Formula

/-! ## Sequents -/

namespace Sequent

/-- A sequent holds if some member of the consequent is true whenever all
    members of the antecedent are. -/
def Holds (I : Interpretation D) (s : Sequent) (v : String → D) : Prop :=
  (∀ p ∈ s.antecedent, p.Holds I v) → ∃ q ∈ s.consequent, q.Holds I v

/-- A sequent is valid if it holds in every structure under every assignment. -/
def Valid (s : Sequent) : Prop :=
  ∀ (D : Type u) (I : Interpretation D) (v : String → D), s.Holds I v

/-- A sequent holds exactly when one of its members speaks for it. -/
theorem holds_iff {s : Sequent} :
    s.Holds I v ↔ ∃ m ∈ s.sidedMembers, m.1.Supports (m.2.Holds I v) := by
  constructor
  · intro h
    by_cases hall : ∀ p ∈ s.antecedent, p.Holds I v
    · obtain ⟨q, hq, hholds⟩ := h hall
      exact ⟨(.consequent, q), List.mem_append_right _ (List.mem_map.mpr ⟨q, hq, rfl⟩), hholds⟩
    · obtain ⟨p, hp⟩ := not_forall.mp hall
      obtain ⟨hp, hnot⟩ := Classical.not_imp.mp hp
      exact ⟨(.antecedent, p), List.mem_append_left _ (List.mem_map.mpr ⟨p, hp, rfl⟩), hnot⟩
  · rintro ⟨m, hm, hsupp⟩ hall
    rcases List.mem_append.mp hm with hm | hm
    · obtain ⟨p, hp, rfl⟩ := List.mem_map.mp hm
      exact absurd (hall p hp) hsupp
    · obtain ⟨q, hq, rfl⟩ := List.mem_map.mp hm
      exact ⟨q, hq, hsupp⟩

/-- Two sequents together hold if one of them does. -/
theorem holds_mix {s t : Sequent} : (s.mix t).Holds I v ↔ s.Holds I v ∨ t.Holds I v := by
  simp only [holds_iff, mem_sidedMembers_mix, or_and_right, exists_or]

theorem holds_onSide {side : Side} {p : Formula} :
    (onSide side [p]).Holds I v ↔ side.Supports (p.Holds I v) := by
  simp only [holds_iff, mem_sidedMembers_onSide, exists_eq_left]

/-- A sequent holds if its context does or its principal formula is supported. -/
theorem holds_principal {s : Sequent} {m : Principal} (h : s.principal? = some m) :
    s.Holds I v ↔ m.context.Holds I v ∨ m.side.Supports (m.formula.Holds I v) := by
  simp only [holds_iff, mem_sidedMembers_principal h, or_and_right, exists_or, exists_eq_left]
  exact or_comm

/-- A sequent holds if one of its parts does. -/
theorem holds_partition {s : Sequent} (k : Nat) :
    s.Holds I v ↔ (s.partition k).1.Holds I v ∨ (s.partition k).2.Holds I v := by
  simp only [holds_iff, ← exists_or, ← or_and_right]
  exact exists_congr fun m => and_congr_left fun _ => mem_sidedMembers_partition

/-- Truth of a sequent depends on the individuals of its names only. -/
theorem holds_congr {s : Sequent} (h : ∀ n ∈ s.names, v n = v' n) :
    s.Holds I v ↔ s.Holds I v' := by
  have hmember : ∀ m ∈ s.sidedMembers, m.2.Holds I v ↔ m.2.Holds I v' := fun m hm =>
    Formula.holds_congr fun n hn => h n (mem_names.mpr ⟨m, hm, hn⟩)
  rw [holds_iff, holds_iff]
  constructor
  · rintro ⟨m, hm, hsupp⟩
    exact ⟨m, hm, propext (hmember m hm) ▸ hsupp⟩
  · rintro ⟨m, hm, hsupp⟩
    exact ⟨m, hm, propext (hmember m hm) ▸ hsupp⟩

end Sequent

/-! ## Rules -/

namespace Inference

/-- How the truth `P` of a principal formula on its side is restated by the
    premises of its rule. -/
def Reads (I : Interpretation D) (v : String → D) (P : Prop) : Inference → Prop
  | extend premise => P ↔ premise.Holds I v
  | share left right => P ↔ left.Holds I v ∧ right.Holds I v
  | choose left right => P ↔ left.Holds I v ∨ right.Holds I v
  | divide left right => P ↔ left.Holds I v ∧ right.Holds I v
  | instantiate side x body => ∃ k : Quantifier,
      P ↔ side.Supports (k.Holds fun d => body.Holds I (Function.update v x d))

/-- Every rule restates the truth of its principal formula, in either variant. -/
theorem reads_of {rules : RuleSet} {side : Side} {p : Formula} {i : Inference}
    (h : of rules side p = .ok i) : i.Reads I v (side.Supports (p.Holds I v)) := by
  cases p with
  | atom a => cases h
  | negation p =>
      cases h
      show _ ↔ _
      rw [Sequent.holds_onSide]
      cases side with
      | antecedent => exact Classical.not_not
      | consequent => exact Iff.rfl
  | binary op p q =>
      cases h
      -- a finite check: two variants of two rules for each of three connectives
      generalize (rules.operator op).get side = d
      cases op <;> cases side <;> cases d <;>
        simp [ofBinary, Reads, Sequent.Holds, Sequent.onSide, Formula.Holds, Operator.Holds,
          Side.Supports]
      · exact imp_iff_not_or
      · exact imp_iff_not_or
  | quantified k x p =>
      cases h
      exact ⟨k, Iff.rfl⟩

end Inference

end SequentCalculus
