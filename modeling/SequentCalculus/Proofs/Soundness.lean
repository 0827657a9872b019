import Mathlib.Data.List.Permutation
import SequentCalculus.Proofs.Semantics
import SequentCalculus.Proofs.Shape
import SequentCalculus.Proofs.Witness

/-! # Soundness — a closed tree proves its root

    Branches are alternatives and the premises of a branch belong together, so
    a closed tree holds one complete derivation: at every node some branch with
    all its premises closed, down to leaves with an atom on both sides.

    Going up from the leaves each rule carries validity from its premises to
    the sequent it decomposes.  For the quantifiers this needs a witness that is
    not free in the sequent, which a sufficient supply guarantees at every node
    (`Supply.Suffices.step`): the argument then holds for each individual in
    place of the witness. -/

namespace SequentCalculus

universe u

variable {D : Type u} {I : Interpretation D} {v : String → D}

/-! ## Leaves -/

/-- A sequent with an atom on both sides holds everywhere. -/
theorem Sequent.holds_of_isIdentity {s : Sequent} (h : s.isIdentity = true) : s.Holds I v := by
  obtain ⟨p, hp, hboth⟩ := List.any_eq_true.mp h
  rw [Bool.and_eq_true] at hboth
  intro hall
  exact ⟨p, by simpa using hboth.2, hall p hp⟩

/-! ## Closed trees -/

namespace ProofTree

/-- A node is closed if all premises of one of its branches are. -/
theorem isClosed_node {s : Sequent} {branches : List (Branch ProofTree)} {grown : Bool}
    (hb : ∀ b ∈ branches, b ≠ .initial) :
    (node s branches grown).isClosed = true ↔
      ∃ ts, Branch.premises ts ∈ branches ∧ ∀ t ∈ ts, t.isClosed = true := by
  rw [isClosed_node_iff]
  exact or_iff_right fun h => hb _ h.1 rfl

end ProofTree

/-! ## Steps -/

/-- What a side says of every individual it says of the quantified formula. -/
theorem Side.supports_quantifier [Nonempty D] {side : Side} {P : D → Prop}
    (h : ∀ d, side.Supports (P d)) (k : Quantifier) : side.Supports (k.Holds P) := by
  obtain ⟨d⟩ := ‹Nonempty D›
  cases side with
  | antecedent =>
      cases k with
      | universal => exact fun hall => h d (hall d)
      | existential => exact fun ⟨e, he⟩ => h e he
  | consequent =>
      cases k with
      | universal => exact h
      | existential => exact ⟨d, h d⟩

/-- If all premises of an alternative hold under every assignment, so does the
    sequent, provided that the witness is not one of its names. -/
theorem Decomposition.holds_of_premises {rules : RuleSet} {supply : Supply} {s : Sequent}
    {d : Decomposition} (hd : of rules supply s = .ok d) {alt : Alternative}
    (halt : alt ∈ d.alternatives) (hfresh : ∀ w, alt.witness = some w → w ∉ s.names)
    (hprem : ∀ p ∈ alt.premises, ∀ v, p.Holds I v) : ∀ v, s.Holds I v := by
  intro v
  obtain ⟨m, i, hm, hi, hyields⟩ := yields hd halt
  have hreads := Inference.reads_of (I := I) (v := v) hi
  rw [Sequent.holds_principal hm]
  cases hyields with
  | extend premise =>
      have h := hprem _ List.mem_cons_self v
      rw [Sequent.holds_mix] at h
      exact h.imp_right hreads.mpr
  | share left right =>
      have hl := hprem _ List.mem_cons_self v
      have hr := hprem (m.context.mix right) (by simp) v
      rw [Sequent.holds_mix] at hl hr
      rcases hl with hl | hl
      · exact Or.inl hl
      · exact hr.imp_right fun hr => hreads.mpr ⟨hl, hr⟩
  | chooseLeft left right =>
      have h := hprem _ List.mem_cons_self v
      rw [Sequent.holds_mix] at h
      exact h.imp_right fun h => hreads.mpr (Or.inl h)
  | chooseRight left right =>
      have h := hprem _ List.mem_cons_self v
      rw [Sequent.holds_mix] at h
      exact h.imp_right fun h => hreads.mpr (Or.inr h)
  | divide left right k =>
      have hl := hprem _ List.mem_cons_self v
      have hr := hprem ((m.context.partition k).2.mix right) (by simp) v
      rw [Sequent.holds_mix] at hl hr
      rw [Sequent.holds_partition k]
      rcases hl with hl | hl
      · exact Or.inl (Or.inl hl)
      · rcases hr with hr | hr
        · exact Or.inl (Or.inr hr)
        · exact Or.inr (hreads.mpr ⟨hl, hr⟩)
  | @instantiate side x body w hw =>
      have hnot : w ∉ s.names := hfresh w rfl
      obtain ⟨k, hk⟩ := hreads
      obtain ⟨-, k', hform⟩ := Inference.eq_quantified_of_instantiate hi
      have hmember : ∀ e, e = (m.side, m.formula) ∨ e ∈ m.context.sidedMembers →
          w ∉ e.2.names := fun e he hwe =>
        hnot (Sequent.mem_names.mpr ⟨e, (Sequent.mem_sidedMembers_principal hm).mpr he, hwe⟩)
      by_cases hcontext : m.context.Holds I v
      · exact Or.inl hcontext
      · refine Or.inr (hk.mpr ?_)
        have : Nonempty D := ⟨v w⟩
        refine Side.supports_quantifier (fun d => ?_) k
        -- let the witness stand for `d`: neither the context nor the scope notices
        have h := hprem _ List.mem_cons_self (Function.update v w d)
        rw [Sequent.holds_mix, Sequent.holds_onSide, Formula.holds_subst,
          Function.update_self] at h
        rcases h with h | h
        · refine absurd ((Sequent.holds_congr fun n hn => ?_).mp h) hcontext
          obtain ⟨e, he, hne⟩ := Sequent.mem_names.mp hn
          refine Function.update_of_ne (fun heq => ?_) _ _
          subst heq
          exact hmember e (Or.inr he) hne
        · have hbody : body.Holds I (Function.update (Function.update v w d) x d) ↔
              body.Holds I (Function.update v x d) := by
            refine Formula.holds_congr fun n hn => ?_
            by_cases hnx : n = x
            · subst hnx
              rw [Function.update_self, Function.update_self]
            · rw [Function.update_of_ne hnx, Function.update_of_ne hnx]
              refine Function.update_of_ne (fun heq => ?_) _ _
              subst heq
              refine hmember _ (Or.inl rfl) ?_
              rw [hform]
              exact Formula.mem_names_quantified.mpr ⟨hn, hnx⟩
          rw [propext hbody] at h
          exact h

/-! ## Trees -/

/-- A closed tree that grew from a sufficient supply has a root that holds in
    every structure. -/
theorem Sequent.holds_of_isClosed {rules : RuleSet} {supply : Supply} {s : Sequent}
    {t : ProofTree} (hgrow : s.grow rules supply = .ok t) :
    supply.Suffices s → t.isClosed = true → ∀ v, s.Holds I v := by
  refine Sequent.grow_induction
    (motive := fun supply s t => supply.Suffices s → t.isClosed = true → ∀ v, s.Holds I v)
    ?_ ?_ hgrow
  · intro supply s hd _ hclosed v
    rw [ProofTree.isClosed_initial] at hclosed
    exact Sequent.holds_of_isIdentity hclosed
  · intro supply s tag alts branches hd hbs hsuff hclosed
    have hnotInitial : ∀ b ∈ branches, b ≠ .initial := by
      intro b hb heq
      obtain ⟨alt, -, ts, rfl, -⟩ := forall₂_exists_left hbs hb
      cases heq
    -- one branch is closed; it belongs to an alternative
    obtain ⟨ts, hts, hall⟩ := (ProofTree.isClosed_node hnotInitial).mp hclosed
    obtain ⟨alt, halt, _, ⟨⟩, hgrown⟩ := forall₂_exists_left hbs hts
    refine Decomposition.holds_of_premises hd halt ?_ ?_
    · intro w hw
      exact (Supply.mem_fresh.mp (hsuff.covers.witness_fresh hd halt hw)).2.1
    · intro p hp
      obtain ⟨c, hc, hmotive⟩ := forall₂_exists_right hgrown hp
      exact hmotive (hsuff.step hd halt hp) (hall c hc)

/-- **Soundness of growth.**  Let the supply have as many different names that
    are not free in the sequent as the sequent has quantifiers.  If the tree
    that grows is closed, the sequent is valid. -/
theorem Sequent.valid_of_grow_isClosed {names : List String} {supply : Supply}
    {rules : RuleSet} {s : Sequent} {t : ProofTree}
    (hsupply : Supply.ofNames names = .ok supply)
    (hcard : s.quantifiers ≤ (names.toFinset \ s.names.toFinset).card)
    (hgrow : (ProofTree.ofSequent s).grow rules supply = .ok t)
    (hclosed : t.isClosed = true) : Sequent.Valid.{u} s := by
  rw [ProofTree.grow_ofSequent] at hgrow
  intro D I v
  exact Sequent.holds_of_isClosed hgrow (Supply.suffices_of_card hsupply hcard) hclosed v

/-- The sequent `∃x P<x>; ∀y (P<y> v ~P<y>)`. -/
def Sequent.excludedMiddle : Sequent :=
  ⟨[.quantified .existential "x" (.atom ⟨"P", ["x"]⟩)],
    [.quantified .universal "y"
      (.binary .disjunction (.atom ⟨"P", ["y"]⟩) (.negation (.atom ⟨"P", ["y"]⟩)))]⟩

/-- Two names are enough for the two quantifiers, and its tree is closed. -/
theorem Sequent.valid_excludedMiddle :
    Sequent.excludedMiddle.quantifiers = 2 ∧
    ∃ t, (ProofTree.ofSequent Sequent.excludedMiddle).grow (RuleSet.uniform .multiplicative)
        ⟨["a", "b"], []⟩ = .ok t ∧
      t.isClosed = true ∧ Sequent.Valid.{u} Sequent.excludedMiddle := by
  refine ⟨rfl, ?_⟩
  have hsupply : Supply.ofNames ["a", "b"] = .ok ⟨["a", "b"], []⟩ := by decide
  have hcard : Sequent.excludedMiddle.quantifiers ≤
      (["a", "b"].toFinset \ Sequent.excludedMiddle.names.toFinset).card := by decide
  have hclosed : ((ProofTree.ofSequent Sequent.excludedMiddle).grow
      (RuleSet.uniform .multiplicative) ⟨["a", "b"], []⟩).toOption.any ProofTree.isClosed
      = true := by decide_cbv
  cases hgrow : (ProofTree.ofSequent Sequent.excludedMiddle).grow
      (RuleSet.uniform .multiplicative) ⟨["a", "b"], []⟩ with
  | error e =>
      rw [hgrow] at hclosed
      cases hclosed
  | ok t =>
      rw [hgrow] at hclosed
      exact ⟨t, rfl, hclosed, Sequent.valid_of_grow_isClosed hsupply hcard hgrow hclosed⟩

end SequentCalculus
