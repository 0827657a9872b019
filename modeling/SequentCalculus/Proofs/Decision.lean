import SequentCalculus.Proofs.Derivations
import SequentCalculus.Proofs.Soundness

/-! # A decision procedure for propositional sequents

    With the right variant of every rule, decomposition loses nothing: the
    conjunction left of a sequent and the disjunction and the conditional right
    of it extend the context by all operands, and in the other positions both
    premises keep the whole context.  Such a rule can be read in both
    directions, so a sequent without quantifiers holds under a truth assignment
    exactly when all its premises do (`Decomposition.of_invertible`).

    Growth then never fails and never has a choice, and the one tree it finds
    decides the sequent.  If it is not closed, an open leaf is falsified by
    making the atoms of its antecedent true and all others false, and this
    assignment falsifies the root. -/

namespace SequentCalculus

universe u

variable {D : Type u} {I : Interpretation D} {v : String → D}

/-! ## Truth assignments -/

/-- The truth value of a compound. -/
def Operator.value : Operator → Bool → Bool → Bool
  | conjunction, a, b => a && b
  | disjunction, a, b => a || b
  | conditional, a, b => !a || b

/-- The truth value of a formula when every atom has one.  Quantifiers are
    passed over; the value is meant for formulas without them. -/
def Formula.value (truth : Atom → Bool) : Formula → Bool
  | atom a => truth a
  | negation p => !p.value truth
  | binary op p q => op.value (p.value truth) (q.value truth)
  | quantified _ _ p => p.value truth

/-- A sequent is a tautology if under every truth assignment that makes all
    members of the antecedent true some member of the consequent is true. -/
def Sequent.IsTautology (s : Sequent) : Prop :=
  ∀ truth : Atom → Bool, (∀ p ∈ s.antecedent, p.value truth = true) →
    ∃ q ∈ s.consequent, q.value truth = true

/-- A truth assignment as a structure whose individuals are the names. -/
def Interpretation.ofTruth (truth : Atom → Bool) : Interpretation String where
  holds p ts := truth ⟨p, ts⟩ = true

/-- Without quantifiers, to hold is to have the value true. -/
theorem Formula.holds_ofTruth (truth : Atom → Bool) {p : Formula} (h : p.quantifiers = 0) :
    p.Holds (.ofTruth truth) id ↔ p.value truth = true := by
  induction p with
  | atom a =>
      show truth ⟨a.predicate, a.terms.map id⟩ = true ↔ truth a = true
      rw [List.map_id]
  | negation p ih =>
      show ¬ p.Holds _ _ ↔ (!p.value truth) = true
      rw [ih h, Bool.not_eq_true, Bool.not_eq_true']
  | binary op p q ihp ihq =>
      simp only [Formula.quantifiers] at h
      show op.Holds _ _ ↔ op.value _ _ = true
      rw [propext (ihp (by omega)), propext (ihq (by omega))]
      cases op <;> cases p.value truth <;> cases q.value truth <;>
        simp [Operator.Holds, Operator.value]
  | quantified k x p ih =>
      simp only [Formula.quantifiers] at h
      omega

/-- Tautologies are the sequents that hold in every structure of this kind. -/
theorem Sequent.isTautology_iff {s : Sequent} (h : s.quantifiers = 0) :
    s.IsTautology ↔ ∀ truth, s.Holds (.ofTruth truth) id := by
  have hmember : ∀ p ∈ s.members, p.quantifiers = 0 := by
    intro p hp
    exact List.sum_eq_zero_iff.mp h _ (List.mem_map.mpr ⟨p, hp, rfl⟩)
  have hant : ∀ p ∈ s.antecedent, p.quantifiers = 0 := fun p hp =>
    hmember p (List.mem_append_left _ hp)
  have hcon : ∀ p ∈ s.consequent, p.quantifiers = 0 := fun p hp =>
    hmember p (List.mem_append_right _ hp)
  refine forall_congr' fun truth => imp_congr ?_ ?_
  · exact forall₂_congr fun p hp => (Formula.holds_ofTruth truth (hant p hp)).symm
  · exact exists_congr fun p => and_congr_right fun hp =>
      (Formula.holds_ofTruth truth (hcon p hp)).symm

/-! ## Invertible rules -/

/-- Every rule is in the variant that can be read in both directions. -/
structure RuleSet.IsInvertible (rules : RuleSet) : Prop where
  conjunction : rules.conjunction = ⟨.multiplicative, .additive⟩
  disjunction : rules.disjunction = ⟨.additive, .multiplicative⟩
  conditional : rules.conditional = ⟨.additive, .multiplicative⟩

/-- The rule set with these variants, whatever the negation has. -/
def RuleSet.invertible (negation : RulePair) : RuleSet where
  negation := negation
  conjunction := ⟨.multiplicative, .additive⟩
  disjunction := ⟨.additive, .multiplicative⟩
  conditional := ⟨.additive, .multiplicative⟩

/-- These variants are the invertible ones. -/
theorem RuleSet.isInvertible_invertible (negation : RulePair) :
    (RuleSet.invertible negation).IsInvertible :=
  ⟨rfl, rfl, rfl⟩

/-- An invertible rule extends its context or shares it between two premises. -/
theorem Inference.of_invertible {rules : RuleSet} (h : rules.IsInvertible) (side : Side)
    {p : Formula} (hp : p.isComplex = true) (hq : p.quantifiers = 0) :
    (∃ premise, of rules side p = .ok (.extend premise)) ∨
      ∃ left right, of rules side p = .ok (.share left right) := by
  cases p with
  | atom a => cases hp
  | negation p => exact Or.inl ⟨_, rfl⟩
  | binary op p q =>
      cases op <;> cases side <;>
        simp [of, RuleSet.operator, RulePair.get, h.conjunction, h.disjunction, h.conditional,
          ofBinary]
  | quantified k x p =>
      simp only [Formula.quantifiers] at hq
      omega

/-- A sequent without quantifiers is atomic or has one alternative, and then it
    holds exactly when all premises do. -/
theorem Decomposition.of_invertible {rules : RuleSet} (h : rules.IsInvertible)
    (supply : Supply) {s : Sequent} (hs : s.quantifiers = 0) :
    (s.principal? = none ∧ of rules supply s = .ok .initial) ∨
    ∃ alt, of rules supply s = .ok (.step s.tag [alt]) ∧ alt.witness = none ∧
      ∀ (D : Type u) (I : Interpretation D) (v : String → D),
        s.Holds I v ↔ ∀ p ∈ alt.premises, p.Holds I v := by
  cases hm : s.principal? with
  | none => exact Or.inl ⟨rfl, by unfold of; rw [hm]⟩
  | some m =>
      right
      -- without quantifiers there is a rule with one alternative
      have hzero : m.formula.quantifiers = 0 := by
        have := Sequent.quantifiers_principal hm
        omega
      rcases Inference.of_invertible h m.side (Sequent.isComplex_principal hm) hzero with
        ⟨premise, hi⟩ | ⟨left, right, hi⟩
      · refine ⟨⟨[m.context.mix premise], none⟩, ?_, rfl, ?_⟩
        · unfold of
          rw [hm]
          simp only [hi]
          rfl
        · intro D I v
          have hreads := Inference.reads_of (I := I) (v := v) hi
          rw [Sequent.holds_principal hm, propext hreads, ← Sequent.holds_mix]
          simp only [List.mem_singleton, forall_eq]
      · refine ⟨⟨[m.context.mix left, m.context.mix right], none⟩, ?_, rfl, ?_⟩
        · unfold of
          rw [hm]
          simp only [hi]
          rfl
        · intro D I v
          have hreads := Inference.reads_of (I := I) (v := v) hi
          rw [Sequent.holds_principal hm, propext hreads, or_and_left, ← Sequent.holds_mix,
            ← Sequent.holds_mix]
          simp only [List.mem_pair, forall_eq_or_imp, forall_eq]

/-! ## The one tree -/

/-- An atomic sequent that is no identity is falsified by making the atoms of
    its antecedent true and no others. -/
theorem Sequent.isIdentity_iff {s : Sequent} (h : s.principal? = none) :
    s.isIdentity = true ↔ ∀ truth, s.Holds (.ofTruth truth) id := by
  constructor
  · intro hid truth
    exact Sequent.holds_of_isIdentity hid
  · intro hall
    have hatom := Sequent.isAtom_of_principal?_eq_none h
    have hvalue : ∀ p ∈ s.members, p.Holds (.ofTruth fun a => s.antecedent.contains (.atom a)) id
        ↔ p ∈ s.antecedent := by
      intro p hp
      obtain ⟨a, rfl⟩ := Sequent.exists_eq_atom (Sequent.isAtomic_iff.mpr h) hp
      rw [Formula.holds_ofTruth _ rfl]
      exact List.contains_iff_mem
    obtain ⟨q, hq, hholds⟩ := hall (fun a => s.antecedent.contains (.atom a)) fun p hp =>
      (hvalue p (List.mem_append_left _ hp)).mpr hp
    have hmem := (hvalue q (List.mem_append_right _ hq)).mp hholds
    refine List.any_eq_true.mpr ⟨q, hmem, ?_⟩
    rw [Bool.and_eq_true]
    exact ⟨hatom q (List.mem_append_right _ hq), List.contains_iff_mem.mpr hq⟩

namespace ProofTree

theorem alternatives_initial (s : Sequent) : (node s [.initial] true).alternatives = 1 := by
  rw [alternatives_node]
  rfl

theorem foldl_boundedMul_one {ns : List Nat} (h : ∀ n ∈ ns, n = 1) :
    ns.foldl boundedMul 1 = 1 := by
  induction ns with
  | nil => rfl
  | cons n ns ih =>
      rw [h n List.mem_cons_self, List.foldl_cons]
      exact ih fun m hm => h m (List.mem_cons_of_mem _ hm)

/-- A node with one branch has one derivation if its premises have one each. -/
theorem alternatives_single (s : Sequent) {ts : List ProofTree}
    (h : ∀ t ∈ ts, t.alternatives = 1) :
    (node s [.premises ts] true).alternatives = 1 := by
  have hts : (ts.map alternatives).foldl boundedMul 1 = 1 := by
    refine foldl_boundedMul_one fun n hn => ?_
    obtain ⟨t, ht, rfl⟩ := List.mem_map.mp hn
    exact h t ht
  rw [alternatives_node]
  show boundedAdd 0 ((ts.map alternatives).foldl boundedMul 1) = 1
  rw [hts]
  rfl

end ProofTree

section OneTree

variable {rules : RuleSet} (hrules : rules.IsInvertible)
include hrules

/-- Growth by invertible rules does not fail. -/
theorem Sequent.exists_grow_of_invertible (supply : Supply) {s : Sequent}
    (hs : s.quantifiers = 0) : ∃ t, s.grow rules supply = .ok t := by
  refine Sequent.exists_grow fun g hg => ?_
  rcases Decomposition.of_invertible.{0} hrules g.supply (hg.quantifiers_eq_zero hs) with
    ⟨-, hd⟩ | ⟨alt, hd, -⟩
  · exact ⟨_, hd⟩
  · exact ⟨_, hd⟩

/-- The tree has a single branch at its root. -/
theorem Sequent.length_branches_of_invertible {supply : Supply} {s : Sequent} {t : ProofTree}
    (hs : s.quantifiers = 0) (hgrow : s.grow rules supply = .ok t) : t.branches.length = 1 := by
  rcases Sequent.grow_eq_ok_iff.mp hgrow with ⟨-, rfl⟩ | ⟨tag, alts, branches, hd, hbs, rfl⟩
  · rfl
  · rcases Decomposition.of_invertible.{0} hrules supply hs with ⟨-, hd'⟩ | ⟨alt, hd', -⟩
    · rw [hd] at hd'
      cases hd'
    · rw [hd] at hd'
      cases hd'
      exact hbs.length_eq.symm

/-- The tree holds one derivation, which is complete exactly when the root holds
    under every truth assignment. -/
theorem Sequent.isClosed_iff_of_invertible {supply : Supply} {s : Sequent} {t : ProofTree}
    (hgrow : s.grow rules supply = .ok t) :
    s.quantifiers = 0 → t.alternatives = 1 ∧
      (t.isClosed = true ↔ ∀ truth, s.Holds (.ofTruth truth) id) := by
  refine Sequent.grow_induction (motive := fun _ s t => s.quantifiers = 0 →
    t.alternatives = 1 ∧ (t.isClosed = true ↔ ∀ truth, s.Holds (.ofTruth truth) id))
    ?_ ?_ hgrow
  · intro supply s hd _
    refine ⟨ProofTree.alternatives_initial s, ?_⟩
    rw [ProofTree.isClosed_initial]
    exact Sequent.isIdentity_iff (Decomposition.principal?_of_initial hd)
  · intro supply s tag alts branches hd hbs hs
    rcases Decomposition.of_invertible hrules supply hs with ⟨-, hd'⟩ | ⟨alt, hd', -, hiff⟩
    · rw [hd] at hd'
      cases hd'
    · rw [hd] at hd'
      cases hd'
      -- a single alternative has grown to a single branch
      obtain ⟨b, _, ⟨ts, rfl, hts⟩, hnil, rfl⟩ := List.forall₂_cons_left_iff.mp hbs
      rw [List.forall₂_nil_left_iff.mp hnil]
      have hzero : ∀ p ∈ alt.premises, p.quantifiers = 0 := by
        intro p hp
        have := Goal.Step.quantifiers_premise hd List.mem_cons_self hp
        omega
      constructor
      · refine ProofTree.alternatives_single s fun t ht => ?_
        obtain ⟨p, hp, hmotive⟩ := forall₂_exists_left hts ht
        exact (hmotive (hzero p hp)).1
      · -- the premises hold exactly where the sequent does
        rw [ProofTree.isClosed_node (by simp)]
        simp only [List.mem_singleton, Branch.premises.injEq, exists_eq_left]
        constructor
        · intro hall truth
          refine (hiff String _ _).mpr fun p hp => ?_
          obtain ⟨t, ht, hmotive⟩ := forall₂_exists_right hts hp
          exact (hmotive (hzero p hp)).2.mp (hall t ht) truth
        · intro hall t ht
          obtain ⟨p, hp, hmotive⟩ := forall₂_exists_left hts ht
          refine (hmotive (hzero p hp)).2.mpr fun truth => ?_
          exact (hiff _ _ _).mp (hall truth) p hp

/-- **Invertible rules decide propositional sequents.**  Growth succeeds for
    every supply, its tree has one derivation with a single branch at every
    node, and it is closed exactly when the sequent is a tautology. -/
theorem Sequent.grow_decides_tautology (supply : Supply) {s : Sequent}
    (hs : s.quantifiers = 0) :
    ∃ t, (ProofTree.ofSequent s).grow rules supply = .ok t ∧ t.alternatives = 1 ∧
      (∀ u, t.HasNode u → u.branches.length = 1) ∧
      (t.isClosed = true ↔ s.IsTautology) := by
  obtain ⟨t, ht⟩ := Sequent.exists_grow_of_invertible hrules supply hs
  obtain ⟨hone, hclosed⟩ := Sequent.isClosed_iff_of_invertible hrules ht hs
  refine ⟨t, ht, hone, ?_, ?_⟩
  · intro u hu
    obtain ⟨supply', hreach, hgrow⟩ := Sequent.reaches_of_hasNode ht hu
    exact Sequent.length_branches_of_invertible hrules (hreach.quantifiers_eq_zero hs) hgrow
  · rw [hclosed, Sequent.isTautology_iff hs]

end OneTree

/-- Peirce's law, as the sequent `; ((P -> Q) -> P) -> P`. -/
def Sequent.peirce : Sequent :=
  ⟨[], [.binary .conditional (.binary .conditional (.binary .conditional
    (.atom ⟨"P", []⟩) (.atom ⟨"Q", []⟩)) (.atom ⟨"P", []⟩)) (.atom ⟨"P", []⟩)]⟩

/-- Peirce's law is found to be a tautology without any names. -/
theorem Sequent.grow_decides_peirce :
    Sequent.peirce.quantifiers = 0 ∧ Sequent.peirce.IsTautology ∧
    ∃ t, (ProofTree.ofSequent Sequent.peirce).grow
        (RuleSet.invertible ⟨.additive, .multiplicative⟩) ⟨[], []⟩ = .ok t ∧
      t.alternatives = 1 ∧ t.isClosed = true := by
  have htautology : Sequent.peirce.IsTautology := by
    intro truth _
    refine ⟨_, List.mem_cons_self, ?_⟩
    simp only [Formula.value, Operator.value]
    cases truth ⟨"P", []⟩ <;> cases truth ⟨"Q", []⟩ <;> rfl
  obtain ⟨t, hgrow, hone, -, hclosed⟩ := Sequent.grow_decides_tautology
    (RuleSet.isInvertible_invertible ⟨.additive, .multiplicative⟩) ⟨[], []⟩
    (show Sequent.peirce.quantifiers = 0 from rfl)
  exact ⟨rfl, htautology, t, hgrow, hone, hclosed.mpr htautology⟩

end SequentCalculus
