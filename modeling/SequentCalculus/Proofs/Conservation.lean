import Mathlib.Data.List.Permutation
import SequentCalculus.Proofs.Derivations
import SequentCalculus.Proofs.Witness

/-! # Multiplicative growth loses nothing and copies nothing

    A multiplicative rule with one premise keeps both operands, and one with two
    premises divides the context between them.  So every part of a sequent goes to
    exactly one premise: a step removes one connective and otherwise passes on
    what it was given (`Decomposition.connectives_premises`,
    `Decomposition.charge_premises`).

    Over a whole derivation this means that as many rules are applied as the root
    has connectives, and that the atoms of the leaves are the atom occurrences of
    the root, each on the side that its polarity gives it.  Instances of quantified
    formulas have other terms than these, but the same predicates. -/

namespace SequentCalculus

/-! ## Occurrences and their polarity -/

/-- The atom occurrences of a formula that stands on a side, with the sides on
    which they count: each negation and each left operand of a conditional
    changes sides. -/
def Formula.occurrences : Formula → Side → List (Side × Atom)
  | atom a, side => [(side, a)]
  | negation p, side => p.occurrences side.flip
  | binary op p q, side => p.occurrences (op.leftSide side) ++ q.occurrences side
  | quantified _ _ p, side => p.occurrences side

/-- A function that shows nothing of the terms. -/
def Atom.Blind {β : Type} (f : Atom → β) : Prop := ∀ x w a, f (a.replace x w) = f a

namespace Formula

variable {β : Type} {f : Atom → β}

/-- Replacing a name keeps the occurrences, as far as a function sees them that does
    not see names. -/
theorem map_occurrences_replaceFree (hf : Atom.Blind f) (x w : String) (p : Formula) (side : Side) :
    ((p.replaceFree x w).occurrences side).map (Prod.map id f) =
      (p.occurrences side).map (Prod.map id f) := by
  induction p generalizing side with
  | atom a => simp [replaceFree, occurrences, hf x w a]
  | negation p ih => exact ih side.flip
  | binary op p q ihp ihq =>
      simp only [replaceFree, occurrences, List.map_append, ihp, ihq]
  | quantified k y p ih =>
      unfold replaceFree
      split
      · rfl
      · exact ih side

/-- An instance has the occurrences of the formula, up to their terms. -/
theorem map_occurrences_subst (hf : Atom.Blind f) (x w : String) (p : Formula) (side : Side) :
    ((p.subst x w).occurrences side).map (Prod.map id f) =
      (p.occurrences side).map (Prod.map id f) := by
  fun_induction subst x w p generalizing side with
  | case1 a => simp [occurrences, hf x w a]
  | case2 p ih => exact ih side.flip
  | case3 op p q ihp ihq => simp only [occurrences, List.map_append, ihp, ihq]
  | case4 => rfl
  | case5 k y p _ _ z ih => exact (ih side).trans (map_occurrences_replaceFree hf y z p side)
  | case6 k y p _ _ ih => exact ih side

end Formula

namespace Sequent

/-- The atom occurrences of all members. -/
def occurrences (s : Sequent) : List (Side × Atom) :=
  s.sidedMembers.flatMap fun m => m.2.occurrences m.1

/-- What a function shows of the atom occurrences, with their sides. -/
def charge {β : Type} (f : Atom → β) (s : Sequent) : List (Side × β) :=
  s.occurrences.map (Prod.map id f)

theorem occurrences_onSide (side : Side) (p : Formula) :
    (onSide side [p]).occurrences = p.occurrences side := by
  rw [occurrences, sidedMembers_onSide]
  simp

/-- The occurrences of two sequents together are those of both. -/
theorem occurrences_mix (s t : Sequent) :
    (s.mix t).occurrences.Perm (s.occurrences ++ t.occurrences) := by
  have hperm := (sidedMembers_mix s t).flatMap_right fun m => m.2.occurrences m.1
  rw [List.flatMap_append] at hperm
  exact hperm

/-- A division of the members divides the occurrences. -/
theorem occurrences_partition (s : Sequent) (k : Nat) :
    ((s.partition k).1.occurrences ++ (s.partition k).2.occurrences).Perm s.occurrences := by
  have hperm := (s.sidedMembers_partition k).flatMap_right fun m => m.2.occurrences m.1
  rw [List.flatMap_append] at hperm
  exact hperm

/-- Two sequents that divide the context of a third, each with members of its
    own. -/
theorem occurrences_divide (s left right : Sequent) (k : Nat) :
    (((s.partition k).1.mix left).occurrences ++ ((s.partition k).2.mix right).occurrences).Perm
      (s.occurrences ++ (left.occurrences ++ right.occurrences)) := by
  have hparts := (s.occurrences_partition k).append_right (left.occurrences ++ right.occurrences)
  refine ((occurrences_mix _ left).append (occurrences_mix _ right)).trans (.trans ?_ hparts)
  simp only [List.append_assoc]
  refine List.Perm.append_left _ ?_
  rw [← List.append_assoc, ← List.append_assoc]
  exact List.perm_append_comm.append_right _

/-- The occurrences of a sequent are those of its context and of its principal
    formula. -/
theorem occurrences_principal {s : Sequent} {m : Principal} (h : s.principal? = some m) :
    s.occurrences.Perm (m.context.occurrences ++ m.formula.occurrences m.side) := by
  have hperm := (sidedMembers_principal h).flatMap_right fun m => m.2.occurrences m.1
  rw [List.flatMap_cons] at hperm
  exact hperm.trans List.perm_append_comm

end Sequent

/-! ## One step -/

namespace Inference

/-- The multiplicative rule of a connective gives both operands to one premise,
    or one operand to each of two. -/
theorem ofBinary_multiplicative (op : Operator) (side : Side) (p q : Formula) :
    (∃ premise, ofBinary op .multiplicative side p q = .extend premise ∧
      premise.sidedMembers = [(op.leftSide side, p), (side, q)]) ∨
    ofBinary op .multiplicative side p q =
      .divide (.onSide (op.leftSide side) [p]) (.onSide side [q]) := by
  cases op with
  | conjunction =>
      cases side with
      | antecedent => exact Or.inl ⟨_, rfl, rfl⟩
      | consequent => exact Or.inr rfl
  | disjunction =>
      cases side with
      | antecedent => exact Or.inr rfl
      | consequent => exact Or.inl ⟨_, rfl, rfl⟩
  | conditional =>
      cases side with
      | antecedent => exact Or.inr rfl
      | consequent => exact Or.inl ⟨_, rfl, rfl⟩

/-- The premises of a rule hold what a formula on a side passes on: all its
    connectives but one, and all its occurrences. -/
structure Conserves (premises : List Sequent) (side : Side) (p : Formula) : Prop where
  connectives : total (premises.map Sequent.connectives) + 1 = p.connectives
  occurrences : (premises.flatMap Sequent.occurrences).Perm (p.occurrences side)

/-- A multiplicative rule passes its principal formula on to one premise or to
    two that divide the context, or it instantiates a quantifier. -/
theorem of_multiplicative {side : Side} {p : Formula} {i : Inference}
    (h : of (RuleSet.uniform .multiplicative) side p = .ok i) :
    (∃ premise, i = .extend premise ∧ Conserves [premise] side p) ∨
    (∃ left right, i = .divide left right ∧ Conserves [left, right] side p) ∨
    ∃ k x body, p = .quantified k x body ∧ i = .instantiate side x body := by
  cases p with
  | atom a => cases h
  | negation p =>
      cases h
      refine Or.inl ⟨_, rfl, ?_, ?_⟩
      · simp [Formula.connectives, Nat.add_comm]
      · simp [Sequent.occurrences_onSide, Formula.occurrences]
  | binary op p q =>
      have hi : ofBinary op .multiplicative side p q = i := by
        cases op <;> cases side <;> exact Except.ok.inj h
      -- both operands go to one premise, or each to its own
      rcases ofBinary_multiplicative op side p q with ⟨premise, hextend, hmembers⟩ | hdivide
      · refine Or.inl ⟨premise, hi.symm.trans hextend, ?_, ?_⟩
        · simp [Sequent.connectives, Sequent.members_eq_map_sidedMembers, hmembers,
            Formula.connectives]
          omega
        · simp [Sequent.occurrences, hmembers, Formula.occurrences]
      · refine Or.inr (Or.inl ⟨_, _, hi.symm.trans hdivide, ?_, ?_⟩)
        · simp [Formula.connectives]
          omega
        · simp [Sequent.occurrences_onSide, Formula.occurrences]
  | quantified k x p =>
      cases h
      exact Or.inr (Or.inr ⟨k, x, p, rfl, rfl⟩)

end Inference

namespace Decomposition

variable {supply : Supply} {s : Sequent} {d : Decomposition} {alt : Alternative}

/-- A step removes one connective. -/
theorem connectives_premises
    (hd : of (RuleSet.uniform .multiplicative) supply s = .ok d) (halt : alt ∈ d.alternatives) :
    total (alt.premises.map Sequent.connectives) + 1 = s.connectives := by
  obtain ⟨m, i, hm, hi, hyields⟩ := yields hd halt
  rw [Sequent.connectives_principal hm]
  rcases Inference.of_multiplicative hi with
    ⟨premise, rfl, hconserves⟩ | ⟨left, right, rfl, hconserves⟩ | ⟨k, x, body, hformula, rfl⟩
  · cases hyields
    have hconnectives := hconserves.connectives
    simp at hconnectives ⊢
    omega
  · cases hyields with
    | divide _ _ k =>
        have hconnectives := hconserves.connectives
        have hcontext := m.context.connectives_partition k
        simp at hconnectives ⊢
        omega
  · cases hyields
    rw [hformula]
    simp [Formula.connectives]
    omega

/-- A step passes on what a function shows of every occurrence, if it shows no
    terms or there are no quantifiers. -/
theorem charge_premises {β : Type} {f : Atom → β}
    (hd : of (RuleSet.uniform .multiplicative) supply s = .ok d) (halt : alt ∈ d.alternatives)
    (hf : s.quantifiers = 0 ∨ Atom.Blind f) :
    (alt.premises.flatMap (Sequent.charge f)).Perm (s.charge f) := by
  obtain ⟨m, i, hm, hi, hyields⟩ := yields hd halt
  have hprincipal := Sequent.occurrences_principal hm
  have hpassed : ∀ os : List (Side × Atom),
      os.Perm (m.context.occurrences ++ m.formula.occurrences m.side) →
      (os.map (Prod.map id f)).Perm (s.charge f) := fun os hos =>
    (hos.trans hprincipal.symm).map _
  rcases Inference.of_multiplicative hi with
    ⟨premise, rfl, hconserves⟩ | ⟨left, right, rfl, hconserves⟩ | ⟨k, x, body, hformula, rfl⟩
  · -- everything goes to the one premise
    cases hyields
    have hoccurrences := hconserves.occurrences
    rw [List.flatMap_singleton] at hoccurrences ⊢
    exact hpassed _ ((Sequent.occurrences_mix _ _).trans (hoccurrences.append_left _))
  · -- each member of the context goes to one of the two premises
    cases hyields with
    | divide _ _ k =>
        have hoccurrences := hconserves.occurrences
        have hdivide := Sequent.occurrences_divide m.context left right k
        simp only [List.flatMap_cons, List.flatMap_nil, List.append_nil] at hoccurrences ⊢
        have hmap := hpassed _ (hdivide.trans (hoccurrences.append_left _))
        rw [List.map_append] at hmap
        exact hmap
  · -- the instance has other terms, so the function must not show them
    cases hyields
    rename_i w _
    have hblind : Atom.Blind f := by
      refine hf.resolve_left fun hzero => ?_
      have hquantifiers := Sequent.quantifiers_principal hm
      rw [hformula, Formula.quantifiers] at hquantifiers
      omega
    have hbody : ((m.context.occurrences ++ body.occurrences m.side).map (Prod.map id f)).Perm
        (s.charge f) := hpassed _ (by rw [hformula, Formula.occurrences])
    have hmix := (Sequent.occurrences_mix m.context (.onSide m.side [body.subst x w])).map
      (Prod.map id f)
    rw [List.map_append, Sequent.occurrences_onSide, Formula.map_occurrences_subst hblind,
      ← List.map_append] at hmix
    rw [List.flatMap_singleton]
    exact hmix.trans hbody

end Decomposition

/-! ## Derivations -/

/-- Lists that correspond up to order do so when put in a row. -/
theorem perm_flatMap_of_forall₂ {α β γ : Type} {f : α → List γ} {g : β → List γ} {xs : List α}
    {ys : List β} (h : List.Forall₂ (fun x y => (g y).Perm (f x)) xs ys) :
    (ys.flatMap g).Perm (xs.flatMap f) := by
  induction h with
  | nil => exact .refl _
  | cons hxy _ ih =>
      rw [List.flatMap_cons, List.flatMap_cons]
      exact hxy.append ih

/-- A property of the derivations of grown trees follows from the leaves and from
    the derivations of the premises of any one alternative. -/
theorem Sequent.derivation_induction {rules : RuleSet}
    {motive : Supply → Sequent → ProofTree → Prop}
    (initial : ∀ supply s, s.isAtomic = true → motive supply s (.ofBranches s [.initial]))
    (step : ∀ supply s tag alts alt us,
      Decomposition.of rules supply s = .ok (.step tag alts) → alt ∈ alts → us ≠ [] →
      List.Forall₂ (motive (supply.below alt)) alt.premises us →
      motive supply s (.ofBranches s [.premises us]))
    {supply : Supply} {s : Sequent} {t d : ProofTree} (h : s.grow rules supply = .ok t)
    (hd : d ∈ t.split) : motive supply s d := by
  refine grow_induction (motive := fun supply s t => ∀ d ∈ t.split, motive supply s d)
    ?_ ?_ h d hd
  · intro supply s hinitial d hd
    rcases ProofTree.mem_split_node.mp hd with ⟨-, rfl⟩ | ⟨ts, us, hb, -, -⟩
    · exact initial supply s (isAtomic_iff.mpr (Decomposition.principal?_of_initial hinitial))
    · cases List.mem_singleton.mp hb
  · intro supply s tag alts branches hstep hbs d hd
    rcases ProofTree.mem_split_node.mp hd with ⟨hb, rfl⟩ | ⟨ts, us, hb, hus, rfl⟩
    · obtain ⟨alt, -, ts, hne, -⟩ := forall₂_exists_left hbs hb
      cases hne
    · -- the branch was grown from an alternative, with a tree for each premise
      obtain ⟨alt, halt, ts', heq, hts⟩ := forall₂_exists_left hbs hb
      cases heq
      have hpremises : List.Forall₂ (motive (supply.below alt)) alt.premises us := by
        refine (forall₂_comp hts hus).imp ?_
        rintro p u ⟨t, ht, hu⟩
        exact ht u hu
      refine step supply s tag alts alt us hstep halt ?_ hpremises
      -- no alternative is without premises
      rintro rfl
      obtain ⟨m, i, -, -, hyields⟩ := Decomposition.yields hstep halt
      have hlength := hpremises.length_eq
      rcases hyields.length_premises with hone | htwo
      · rw [hone] at hlength
        cases hlength
      · rw [htwo] at hlength
        cases hlength

namespace ProofTree

/-- The leaves of a node: the node itself if it has no children. -/
def leavesOf (root : Sequent) (branches : List (Branch (List Sequent))) : List Sequent :=
  if (branches.flatMap Branch.children).isEmpty then [root]
  else (branches.flatMap Branch.children).flatten

/-- The sequents of the leaves, over all branches. -/
def leaves : ProofTree → List Sequent := fold fun root branches _ => leavesOf root branches

/-- The number of rules that are applied in a branch and above it. -/
def rulesOf : Branch Nat → Nat
  | .initial => 0
  | .premises counts => 1 + total counts

/-- The number of rules applied: one for each branch with premises. -/
def ruleCount : ProofTree → Nat := fold fun _ branches _ => total (branches.map rulesOf)

/-- A node with children adds no leaf of its own. -/
theorem leavesOf_eq {branches : List (Branch (List Sequent))}
    (h : (branches.flatMap Branch.children).isEmpty = false) (root : Sequent) :
    leavesOf root branches = (branches.flatMap Branch.children).flatten := by
  rw [leavesOf, h]
  rfl

theorem leaves_initial (s : Sequent) : (ofBranches s [.initial]).leaves = [s] := by
  rw [ofBranches, leaves, fold_node]
  rfl

/-- The leaves of a node are those of its premises. -/
theorem leaves_premises (s : Sequent) {us : List ProofTree} (h : us ≠ []) :
    (ofBranches s [.premises us]).leaves = us.flatMap leaves := by
  obtain ⟨u, us, rfl⟩ := List.exists_cons_of_ne_nil h
  rw [ofBranches, leaves, fold_node]
  simp [leavesOf, Branch.map, Branch.children, List.flatMap]

theorem ruleCount_initial (s : Sequent) : (ofBranches s [.initial]).ruleCount = 0 := by
  rw [ofBranches, ruleCount, fold_node]
  rfl

/-- A node takes one rule more than its premises. -/
theorem ruleCount_premises (s : Sequent) (us : List ProofTree) :
    (ofBranches s [.premises us]).ruleCount = 1 + total (us.map ruleCount) := by
  rw [ofBranches, ruleCount, fold_node]
  rfl

end ProofTree

/-- The atom that a formula is, if it is one. -/
def Formula.atom? : Formula → Option Atom
  | atom a => some a
  | _ => none

namespace Sequent

/-- The members that are atoms, with their sides. -/
def sidedAtoms (s : Sequent) : List (Side × Atom) :=
  s.sidedMembers.filterMap fun m => m.2.atom?.map (m.1, ·)

/-- An atomic sequent has no connectives. -/
theorem connectives_of_isAtomic {s : Sequent} (h : s.isAtomic = true) : s.connectives = 0 := by
  rw [connectives, total_eq_sum, List.sum_eq_zero_iff]
  intro n hn
  obtain ⟨p, hp, rfl⟩ := List.mem_map.mp hn
  obtain ⟨a, rfl⟩ := exists_eq_atom h hp
  rfl

/-- The occurrences of an atomic sequent are its members. -/
theorem sidedAtoms_of_isAtomic {s : Sequent} (h : s.isAtomic = true) :
    s.sidedAtoms = s.occurrences := by
  rw [sidedAtoms, occurrences, List.filterMap_eq_flatMap_toList]
  refine List.flatMap_congr ?_
  rintro ⟨side, p⟩ hm
  obtain ⟨a, rfl⟩ := exists_eq_atom h (mem_members.mpr ⟨side, hm⟩)
  rfl

variable {supply : Supply} {s : Sequent} {t d : ProofTree}

/-- As many rules are applied as there are connectives. -/
theorem ruleCount_of_mem_split (h : s.grow (RuleSet.uniform .multiplicative) supply = .ok t)
    (hd : d ∈ t.split) : d.ruleCount = s.connectives := by
  refine derivation_induction (motive := fun _ s d => d.ruleCount = s.connectives) ?_ ?_ h hd
  · intro supply s hatomic
    rw [ProofTree.ruleCount_initial, connectives_of_isAtomic hatomic]
  · intro supply s tag alts alt us hstep halt _ hus
    have hcounts : alt.premises.map connectives = us.map ProofTree.ruleCount :=
      map_eq_map_of_forall₂ (hus.imp fun _ _ hcount => hcount.symm)
    rw [ProofTree.ruleCount_premises, ← hcounts, Nat.add_comm]
    exact Decomposition.connectives_premises hstep halt

/-- The leaves of a derivation are atomic, whatever the rules. -/
theorem isAtomic_of_mem_leaves {rules : RuleSet} (h : s.grow rules supply = .ok t)
    (hd : d ∈ t.split) : ∀ l ∈ d.leaves, l.isAtomic = true := by
  refine derivation_induction (motive := fun _ _ d => ∀ l ∈ d.leaves, l.isAtomic = true)
    ?_ ?_ h hd
  · intro supply s hatomic l hl
    rw [ProofTree.leaves_initial, List.mem_singleton] at hl
    rw [hl]
    exact hatomic
  · intro supply s tag alts alt us _ _ hne hus l hl
    rw [ProofTree.leaves_premises s hne] at hl
    obtain ⟨u, hu, hl⟩ := List.mem_flatMap.mp hl
    obtain ⟨p, -, hleaves⟩ := forall₂_exists_left hus hu
    exact hleaves l hl

/-- The atoms of the leaves are the occurrences of the root, as far as the
    function shows them. -/
theorem leaves_perm_charge {β : Type} {f : Atom → β}
    (h : s.grow (RuleSet.uniform .multiplicative) supply = .ok t) (hd : d ∈ t.split)
    (hf : s.quantifiers = 0 ∨ Atom.Blind f) :
    ((d.leaves.flatMap sidedAtoms).map (Prod.map id f)).Perm (s.charge f) := by
  refine derivation_induction (motive := fun _ s d => (s.quantifiers = 0 ∨ Atom.Blind f) →
    ((d.leaves.flatMap sidedAtoms).map (Prod.map id f)).Perm (s.charge f)) ?_ ?_ h hd hf
  · intro supply s hatomic _
    rw [ProofTree.leaves_initial, List.flatMap_singleton, sidedAtoms_of_isAtomic hatomic]
    exact .refl _
  · intro supply s tag alts alt us hstep halt hne hus hf
    refine .trans ?_ (Decomposition.charge_premises hstep halt hf)
    rw [ProofTree.leaves_premises s hne, List.flatMap_assoc, List.map_flatMap]
    refine perm_flatMap_of_forall₂ (forall₂_imp_of_mem hus ?_)
    intro p hp u hu
    -- no premise has quantifiers that the sequent lacks
    refine hu (hf.imp_left fun hzero => ?_)
    have hle := Goal.Step.quantifiers_premise hstep halt hp
    omega

/-- **Multiplicative growth conserves its resources.**  A grown tree splits into at
    least one derivation.  Each of them applies as many rules as its root has
    connectives and ends in atomic leaves.  The atoms of the leaves, with the sides
    on which they stand, are the atom occurrences of the root, up to the terms that
    instances bring in; without quantifiers they are the same atoms. -/
theorem conserved_of_grow {supply : Supply} {s : Sequent} {t : ProofTree}
    (h : (ProofTree.ofSequent s).grow (RuleSet.uniform .multiplicative) supply = .ok t) :
    t.split ≠ [] ∧ ∀ d ∈ t.split,
      d.ruleCount = s.connectives ∧
      (∀ l ∈ d.leaves, l.isAtomic = true) ∧
      ((d.leaves.flatMap sidedAtoms).map (Prod.map id Atom.predicate)).Perm
        (s.occurrences.map (Prod.map id Atom.predicate)) ∧
      (s.quantifiers = 0 → (d.leaves.flatMap sidedAtoms).Perm s.occurrences) := by
  rw [ProofTree.grow_ofSequent] at h
  refine ⟨ProofTree.split_ne_nil fun u hu => ?_, ?_⟩
  · obtain ⟨_, -, hgrow⟩ := reaches_of_hasNode h hu
    exact (ProofTree.isShaped_iff_conforms.mp (isShaped_of_grow hgrow)).grown
  · intro d hd
    refine ⟨ruleCount_of_mem_split h hd, isAtomic_of_mem_leaves h hd, ?_, ?_⟩
    · exact leaves_perm_charge h hd (Or.inr fun _ _ _ => rfl)
    · intro hzero
      have hperm := leaves_perm_charge h hd (f := id) (Or.inl hzero)
      simpa [charge] using hperm

/-- The sequent `A -> P<a>, p; ~A`, whose first rule divides the context. -/
def contraposition (p : Formula) : Sequent :=
  ⟨[.binary .conditional (.atom ⟨"A", []⟩) (.atom ⟨"P", ["a"]⟩), p],
    [.negation (.atom ⟨"A", []⟩)]⟩

/-- From `∀x ~P<x>` a derivation takes four rules and may take another term for
    `x`; from `~P<a>` it takes three and keeps the term. -/
theorem conserved_contraposition :
    (∃ t, (ProofTree.ofSequent (contraposition (.quantified .universal "x"
          (.negation (.atom ⟨"P", ["x"]⟩))))).grow
          (RuleSet.uniform .multiplicative) ⟨["a"], []⟩ = .ok t ∧
        ∃ d ∈ t.split, d.ruleCount = 4 ∧
          ((d.leaves.flatMap sidedAtoms).map (Prod.map id Atom.predicate)).Perm
            [(.consequent, "A"), (.antecedent, "P"), (.consequent, "P"), (.antecedent, "A")]) ∧
    ∃ t, (ProofTree.ofSequent (contraposition (.negation (.atom ⟨"P", ["a"]⟩)))).grow
        (RuleSet.uniform .multiplicative) ⟨["a"], []⟩ = .ok t ∧
      ∃ d ∈ t.split, d.ruleCount = 3 ∧
        (d.leaves.flatMap sidedAtoms).Perm
          [(.consequent, ⟨"A", []⟩), (.antecedent, ⟨"P", ["a"]⟩),
            (.consequent, ⟨"P", ["a"]⟩), (.antecedent, ⟨"A", []⟩)] := by
  have ht : ∃ t, (ProofTree.ofSequent (contraposition (.quantified .universal "x"
      (.negation (.atom ⟨"P", ["x"]⟩))))).grow
      (RuleSet.uniform .multiplicative) ⟨["a"], []⟩ = .ok t := exists_eq_ok (by decide_cbv)
  have hu : ∃ u, (ProofTree.ofSequent (contraposition (.negation (.atom ⟨"P", ["a"]⟩)))).grow
      (RuleSet.uniform .multiplicative) ⟨["a"], []⟩ = .ok u := exists_eq_ok (by decide_cbv)
  obtain ⟨t, ht⟩ := ht
  obtain ⟨u, hu⟩ := hu
  obtain ⟨hne, hderivations⟩ := conserved_of_grow ht
  obtain ⟨hne', hderivations'⟩ := conserved_of_grow hu
  obtain ⟨d, hd⟩ := List.exists_mem_of_ne_nil _ hne
  obtain ⟨e, he⟩ := List.exists_mem_of_ne_nil _ hne'
  obtain ⟨hcount, -, hperm, -⟩ := hderivations d hd
  obtain ⟨hcount', -, -, hperm'⟩ := hderivations' e he
  exact ⟨⟨t, ht, d, hd, hcount, hperm⟩, u, hu, e, he, hcount', hperm' rfl⟩

end Sequent

end SequentCalculus
