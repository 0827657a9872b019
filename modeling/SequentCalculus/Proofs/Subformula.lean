import Mathlib.Data.List.Permutation
import SequentCalculus.Proofs.Witness

/-! # The signed subformula property

    A formula that stands on a side of a sequent gives each of its subformulas a
    side: negations and left operands of conditionals change it, and nothing else
    does (`Formula.subformulas`).  Each rule puts the operands of its principal
    formula on just these sides and takes the rest of its premises from the context
    (`Inference.sublist_signedOperands`), whether it copies the context or divides it.

    So every formula that a step brings about is a subformula of one that was there,
    on the side that it has as such (`Decomposition.mem_subformulas_premise`), and
    this is passed down to every node of a grown tree. -/

namespace SequentCalculus

/-! ## Subformulas and their sides -/

namespace Formula

/-- The subformula occurrences of a formula that stands on a side, with their own
    sides: each negation and each left operand of a conditional changes sides. -/
def subformulas : Formula → Side → List (Side × Formula)
  | atom a, side => [(side, atom a)]
  | negation p, side => (side, negation p) :: p.subformulas side.flip
  | binary op p q, side =>
      (side, binary op p q) :: (p.subformulas (op.leftSide side) ++ q.subformulas side)
  | quantified k x p, side => (side, quantified k x p) :: p.subformulas side

theorem mem_subformulas_self (p : Formula) (side : Side) : (side, p) ∈ p.subformulas side := by
  cases p <;> exact List.mem_cons_self

/-- A subformula is the formula itself or a subformula of an operand. -/
theorem mem_subformulas_iff {p : Formula} {side : Side} {m : Side × Formula} :
    m ∈ p.subformulas side ↔
      m = (side, p) ∨ ∃ n ∈ p.signedOperands side, m ∈ n.2.subformulas n.1 := by
  cases p <;> simp [subformulas, signedOperands]

/-- Subformulas of subformulas are subformulas, and their sides come out the same. -/
theorem mem_subformulas_trans {p : Formula} {side : Side} {m n : Side × Formula}
    (hm : m ∈ p.subformulas side) (hn : n ∈ m.2.subformulas m.1) : n ∈ p.subformulas side := by
  induction p generalizing side with
  | atom a =>
      obtain rfl := List.mem_singleton.mp hm
      exact hn
  | negation p ih =>
      rcases List.mem_cons.mp hm with rfl | hm
      · exact hn
      · exact List.mem_cons_of_mem _ (ih hm)
  | binary op p q ihp ihq =>
      rcases List.mem_cons.mp hm with rfl | hm
      · exact hn
      · rcases List.mem_append.mp hm with hm | hm
        · exact List.mem_cons_of_mem _ (List.mem_append_left _ (ihp hm))
        · exact List.mem_cons_of_mem _ (List.mem_append_right _ (ihq hm))
  | quantified k x p ih =>
      rcases List.mem_cons.mp hm with rfl | hm
      · exact hn
      · exact List.mem_cons_of_mem _ (ih hm)

end Formula

namespace Sequent

/-- The subformula occurrences of all members, with their sides. -/
def subformulas (s : Sequent) : List (Side × Formula) :=
  s.sidedMembers.flatMap fun m => m.2.subformulas m.1

theorem mem_sidedMembers {s : Sequent} {side : Side} {p : Formula} :
    (side, p) ∈ s.sidedMembers ↔ p ∈ s.side side := by
  cases side <;> simp [sidedMembers, Sequent.side]

theorem mem_subformulas {s : Sequent} {m : Side × Formula} :
    m ∈ s.subformulas ↔ ∃ side, ∃ p ∈ s.side side, m ∈ p.subformulas side := by
  rw [subformulas, List.mem_flatMap]
  constructor
  · rintro ⟨⟨side, p⟩, hp, hm⟩
    exact ⟨side, p, mem_sidedMembers.mp hp, hm⟩
  · rintro ⟨side, p, hp, hm⟩
    exact ⟨(side, p), mem_sidedMembers.mpr hp, hm⟩

end Sequent

/-! ## One step -/

/-- Where no quantifier is instantiated, the members of a premise are subformulas of
    members of the sequent. -/
theorem Decomposition.mem_subformulas_premise {rules : RuleSet} {supply : Supply}
    {s p : Sequent} {d : Decomposition} {alt : Alternative} (hs : s.quantifiers = 0)
    (hd : of rules supply s = .ok d) (halt : alt ∈ d.alternatives) (hp : p ∈ alt.premises)
    {m : Side × Formula} (hm : m ∈ p.sidedMembers) :
    ∃ n ∈ s.sidedMembers, m ∈ n.2.subformulas n.1 := by
  obtain ⟨principal, i, hprincipal, hi, hyields⟩ := yields hd halt
  obtain ⟨c, q, rfl, hc, hq⟩ := hyields.premise_eq hp
  have hmember := Sequent.mem_sidedMembers_principal hprincipal (e := m)
  rcases Sequent.mem_sidedMembers_mix.mp hm with hmc | hmq
  · -- what is taken from the context stays on its side
    exact ⟨m, hmember.mpr (Or.inr (hc.mem hmc)), m.2.mem_subformulas_self m.1⟩
  · rcases hq with ⟨-, hq⟩ | ⟨side, x, body, w, rfl, -⟩
    · have hoperand := (Inference.sublist_signedOperands hi hq).subset hmq
      refine ⟨(principal.side, principal.formula), ?_, ?_⟩
      · exact (Sequent.mem_sidedMembers_principal hprincipal).mpr (Or.inl rfl)
      · exact Formula.mem_subformulas_iff.mpr
          (Or.inr ⟨m, hoperand, m.2.mem_subformulas_self m.1⟩)
    · -- a quantifier would have been counted
      obtain ⟨-, k, hform⟩ := Inference.eq_quantified_of_instantiate hi
      have hcount := Sequent.quantifiers_principal hprincipal
      rw [hform, Formula.quantifiers] at hcount
      omega

/-! ## Every node -/

/-- However far decomposition goes, it stays among the subformulas. -/
theorem Goal.Reaches.subset_subformulas {rules : RuleSet} {g g' : Goal} (h : g.Reaches rules g')
    (hg : g.sequent.quantifiers = 0) : g'.sequent.sidedMembers ⊆ g.sequent.subformulas := by
  induction h with
  | refl =>
      intro m hm
      exact List.mem_flatMap.mpr ⟨m, hm, m.2.mem_subformulas_self m.1⟩
  | tail hreach hstep ih =>
      obtain ⟨hd, halt, hp⟩ := hstep
      intro m hm
      have hzero := Goal.Reaches.quantifiers_eq_zero hreach hg
      obtain ⟨n, hn, hmn⟩ := Decomposition.mem_subformulas_premise hzero hd halt hp hm
      obtain ⟨e, he, hne⟩ := List.mem_flatMap.mp (ih hn)
      exact List.mem_flatMap.mpr ⟨e, he, Formula.mem_subformulas_trans hne hmn⟩

/-- **The signed subformula property.**  Whatever the rules and the supply, every
    formula on a side of any node of a tree that is grown from a sequent without
    quantifiers is a subformula of a member of that sequent, and the side is the one
    that this occurrence has by its polarity. -/
theorem ProofTree.subformula_of_hasNode {rules : RuleSet} {supply : Supply} {s : Sequent}
    {t u : ProofTree} (hs : s.quantifiers = 0) (h : (ofSequent s).grow rules supply = .ok t)
    (hu : t.HasNode u) {side : Side} {p : Formula} (hp : p ∈ u.root.side side) :
    ∃ side', ∃ q ∈ s.side side', (side, p) ∈ q.subformulas side' := by
  rw [grow_ofSequent] at h
  obtain ⟨supply', hreach, -⟩ := Sequent.reaches_of_hasNode h hu
  have hsub := hreach.subset_subformulas hs
  exact Sequent.mem_subformulas.mp (hsub (Sequent.mem_sidedMembers.mpr hp))

/-- The sequent `~A -> B; A v B`. -/
def Sequent.negatedHypothesis : Sequent :=
  ⟨[.binary .conditional (.negation (.atom ⟨"A", []⟩)) (.atom ⟨"B", []⟩)],
    [.binary .disjunction (.atom ⟨"A", []⟩) (.atom ⟨"B", []⟩)]⟩

/-- Below `~A -> B; A v B` the atom `A`, which changes sides twice, may stand on the
    left, but neither the negation nor the disjunction ever does. -/
theorem ProofTree.subformula_negatedHypothesis :
    Sequent.negatedHypothesis.quantifiers = 0 ∧
    ∃ t, (ofSequent Sequent.negatedHypothesis).grow (RuleSet.uniform .multiplicative) .empty =
        .ok t ∧
      ∀ u, t.HasNode u → ∀ p ∈ u.root.antecedent,
        p ∈ [.binary .conditional (.negation (.atom ⟨"A", []⟩)) (.atom ⟨"B", []⟩),
          .atom ⟨"A", []⟩, .atom ⟨"B", []⟩] := by
  obtain ⟨t, ht⟩ : ∃ t, (ofSequent Sequent.negatedHypothesis).grow
      (RuleSet.uniform .multiplicative) .empty = .ok t := exists_eq_ok (by decide_cbv)
  refine ⟨rfl, t, ht, ?_⟩
  intro u hu p hp
  have hside : p ∈ u.root.side .antecedent := hp
  obtain ⟨side, q, hq, hmem⟩ := subformula_of_hasNode rfl ht hu hside
  cases side with
  | antecedent =>
      obtain rfl := List.mem_singleton.mp hq
      simpa [Formula.subformulas, Operator.leftSide, Side.flip] using hmem
  | consequent =>
      obtain rfl := List.mem_singleton.mp hq
      simp [Formula.subformulas, Operator.leftSide] at hmem

end SequentCalculus
