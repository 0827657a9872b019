import Mathlib.Algebra.Order.Ring.Nat
import Mathlib.Data.Finset.SDiff
import Mathlib.Data.Finset.Card
import SequentCalculus.Proofs.Growth
import SequentCalculus.Proofs.Nameless

/-! # A supply of names that lasts

    Each quantifier on the way from the root takes one name, and what it takes
    is used up.  No step adds a quantifier and each instantiation removes one,
    so a supply that has a fresh name for every quantifier of the root has one
    for every quantifier anywhere below it (`Supply.Covers.reaches`), and the
    placeholder is never taken (`Supply.Covers.witness_fresh`). -/

namespace SequentCalculus

/-! ## Counting quantifiers -/

namespace Formula

/-- Number of quantifiers. -/
def quantifiers : Formula → Nat
  | atom _ => 0
  | negation p => p.quantifiers
  | binary _ p q => p.quantifiers + q.quantifiers
  | quantified _ _ p => 1 + p.quantifiers

@[simp] theorem quantifiers_replaceFree (x w : String) (p : Formula) :
    (p.replaceFree x w).quantifiers = p.quantifiers := by
  induction p with
  | atom a => rfl
  | negation p ih => exact ih
  | binary op p q ihp ihq => simp only [replaceFree, quantifiers, ihp, ihq]
  | quantified k y p ih =>
      unfold replaceFree
      by_cases h : y = x
      · rw [if_pos h]
      · rw [if_neg h]
        simp only [quantifiers, ih]

@[simp] theorem quantifiers_subst (x w : String) (p : Formula) :
    (p.subst x w).quantifiers = p.quantifiers := by
  fun_induction subst x w p with
  | case1 a => rfl
  | case2 p ih => exact ih
  | case3 op p q ihp ihq => simp only [quantifiers, ihp, ihq]
  | case4 => rfl
  | case5 k y p _ _ z ih => simp only [quantifiers, ih, quantifiers_replaceFree]
  | case6 k y p _ _ ih => simp only [quantifiers, ih]

/-- The operands of a formula have no more quantifiers than it has. -/
theorem sum_quantifiers_operands_le (p : Formula) :
    (p.operands.map quantifiers).sum ≤ p.quantifiers := by
  cases p <;> simp [operands, quantifiers]

end Formula

namespace Sequent

/-- Number of quantifiers in all members together. -/
def quantifiers (s : Sequent) : Nat := (s.members.map Formula.quantifiers).sum

theorem quantifiers_principal {s : Sequent} {m : Principal} (h : s.principal? = some m) :
    s.quantifiers = m.formula.quantifiers + m.context.quantifiers :=
  weigh_principal Formula.quantifiers h

end Sequent

/-! ## Names and quantifiers of the premises -/

namespace Inference

variable {rules : RuleSet} {side : Side} {p : Formula} {i : Inference} {q : Sequent}

/-- The premises of a rule without witnesses bring in no name. -/
theorem names_premise (h : of rules side p = .ok i) (hq : q ∈ i.premises) {n : String}
    (hn : n ∈ q.names) : n ∈ p.names := by
  obtain ⟨r, hr, hnr⟩ := List.mem_flatMap.mp hn
  have hop := (sublist_operands h hq).subset hr
  cases p with
  | atom a => cases h
  | negation p =>
      rw [List.mem_singleton.mp hop] at hnr
      exact hnr
  | binary op p p' =>
      rcases List.mem_pair.mp hop with rfl | rfl
      · exact List.mem_append_left _ hnr
      · exact List.mem_append_right _ hnr
  | quantified k x p =>
      cases h
      cases hq

end Inference

namespace Goal.Step

variable {rules : RuleSet} {supply : Supply} {s p : Sequent} {d : Decomposition}
  {alt : Alternative}

/-- A premise has the names of the sequent and the witness it was made with. -/
theorem names_premise (hd : Decomposition.of rules supply s = .ok d)
    (halt : alt ∈ d.alternatives) (hp : p ∈ alt.premises) {n : String} (hn : n ∈ p.names) :
    n ∈ s.names ∨ alt.witness = some n := by
  obtain ⟨m, i, hm, hi, hyields⟩ := Decomposition.yields hd halt
  obtain ⟨c, q, rfl, hc, hq⟩ := hyields.premise_eq hp
  have hprincipal : ∀ n ∈ m.formula.names, n ∈ s.names := fun n hn =>
    Sequent.mem_names.mpr ⟨_, (Sequent.mem_sidedMembers_principal hm).mpr (Or.inl rfl), hn⟩
  obtain ⟨e, he, hne⟩ := Sequent.mem_names.mp hn
  rcases Sequent.mem_sidedMembers_mix.mp he with he | he
  · have hmem := (Sequent.mem_sidedMembers_principal hm).mpr (Or.inr (hc.mem he))
    exact Or.inl (Sequent.mem_names.mpr ⟨e, hmem, hne⟩)
  · rcases hq with ⟨-, hq⟩ | ⟨side, x, body, w, rfl, -, hw, rfl⟩
    · have hnq : n ∈ q.names := Sequent.mem_names.mpr ⟨e, he, hne⟩
      exact Or.inl (hprincipal n (Inference.names_premise hi hq hnq))
    · rw [Sequent.mem_sidedMembers_onSide.mp he] at hne
      obtain ⟨-, k, hform⟩ := Inference.eq_quantified_of_instantiate hi
      rcases Formula.mem_names_subst.mp hne with ⟨hn, hx⟩ | ⟨rfl, -⟩
      · refine Or.inl (hprincipal n ?_)
        rw [hform]
        exact Formula.mem_names_quantified.mpr ⟨hn, hx⟩
      · exact Or.inr hw

/-- No premise has more quantifiers than the sequent, and an instance has one
    less. -/
theorem quantifiers_premise (hd : Decomposition.of rules supply s = .ok d)
    (halt : alt ∈ d.alternatives) (hp : p ∈ alt.premises) :
    p.quantifiers + alt.witness.toList.length ≤ s.quantifiers := by
  have hle := Decomposition.weigh_premise_le (f := Formula.quantifiers) (c := 1)
    Formula.sum_quantifiers_operands_le
    (fun k x body w => by simp [Formula.quantifiers, Nat.add_comm]) hd halt hp
  rw [Nat.one_mul] at hle
  exact hle

end Goal.Step

/-- Decomposition brings in no quantifiers. -/
theorem Goal.Reaches.quantifiers_eq_zero {rules : RuleSet} {g g' : Goal}
    (h : g.Reaches rules g') (hg : g.sequent.quantifiers = 0) :
    g'.sequent.quantifiers = 0 := by
  refine h.preserves (fun g => g.sequent.quantifiers = 0) ?_ hg
  rintro _ _ ⟨hd, halt, hp⟩ hzero
  have hle := Goal.Step.quantifiers_premise hd halt hp
  simp only at hzero ⊢
  omega

/-! ## Fresh names -/

namespace Supply

/-- A fresh name is one of the supply, neither in the sequent nor used. -/
theorem mem_fresh {supply : Supply} {s : Sequent} {n : String} :
    n ∈ supply.fresh s ↔ n ∈ supply.names ∧ n ∉ s.names ∧ n ∉ supply.used := by
  simp [fresh]

/-- The supply has a fresh name for each quantifier, repetitions not counted. -/
def Covers (supply : Supply) (s : Sequent) : Prop :=
  s.quantifiers ≤ (supply.fresh s).toFinset.card

/-- Where a quantifier is to be decomposed, some name is fresh. -/
theorem Covers.fresh_ne_nil {supply : Supply} {s : Sequent} (h : supply.Covers s) {m : Principal}
    {k : Quantifier} {x : String} {body : Formula} (hm : s.principal? = some m)
    (hformula : m.formula = .quantified k x body) : supply.fresh s ≠ [] := by
  intro hnil
  unfold Covers at h
  rw [hnil, List.toFinset_nil, Finset.card_empty, Sequent.quantifiers_principal hm, hformula,
    Formula.quantifiers] at h
  omega

/-- The supply has every name once, and a fresh one for each quantifier. -/
structure Suffices (supply : Supply) (s : Sequent) : Prop where
  nodup : supply.names.Nodup
  enough : s.quantifiers ≤ (supply.fresh s).length

theorem card_fresh {supply : Supply} (h : supply.names.Nodup) (s : Sequent) :
    (supply.fresh s).toFinset.card = (supply.fresh s).length := by
  have hnodup : (supply.fresh s).Nodup := h.filter _
  exact List.toFinset_card_of_nodup hnodup

/-- A sufficient supply has a fresh name for every quantifier. -/
theorem Suffices.covers {supply : Supply} {s : Sequent} (h : supply.Suffices s) :
    supply.Covers s := by
  rw [Covers, card_fresh h.nodup]
  exact h.enough

/-- With enough names the witness of an alternative is fresh: the placeholder is
    not needed. -/
theorem Covers.witness_fresh {rules : RuleSet} {supply : Supply} {s : Sequent}
    {d : Decomposition} {alt : Alternative} {w : String} (h : supply.Covers s)
    (hd : Decomposition.of rules supply s = .ok d) (halt : alt ∈ d.alternatives)
    (hw : alt.witness = some w) : w ∈ supply.fresh s := by
  obtain ⟨⟨m, k, x, body, hm, hformula⟩, hcandidate⟩ :=
    Decomposition.exists_quantified_of_witness hd halt hw
  rw [candidates_eq, if_neg (h.fresh_ne_nil hm hformula)] at hcandidate
  exact hcandidate

@[simp] theorem below_names (supply : Supply) (alt : Alternative) :
    (supply.below alt).names = supply.names := by
  unfold below
  cases alt.witness <;> rfl

/-- Below an alternative its witness is used. -/
theorem mem_used_below {supply : Supply} {alt : Alternative} {n : String} :
    n ∈ (supply.below alt).used ↔ alt.witness = some n ∨ n ∈ supply.used := by
  unfold below
  cases alt.witness with
  | none => simp
  | some w => simp [descend, eq_comm]

/-- A supply that has enough names for a sequent has enough below each of its
    alternatives: at most the witness is no longer fresh there. -/
theorem Covers.step {rules : RuleSet} {supply : Supply} {s p : Sequent} {d : Decomposition}
    {alt : Alternative} (h : supply.Covers s) (hd : Decomposition.of rules supply s = .ok d)
    (halt : alt ∈ d.alternatives) (hp : p ∈ alt.premises) : (supply.below alt).Covers p := by
  have hsub : (supply.fresh s).toFinset ⊆
      ((supply.below alt).fresh p).toFinset ∪ alt.witness.toList.toFinset := by
    intro n hn
    obtain ⟨hmem, hns, hnu⟩ := mem_fresh.mp (List.mem_toFinset.mp hn)
    rw [Finset.mem_union, List.mem_toFinset, List.mem_toFinset]
    by_cases hw : alt.witness = some n
    · exact Or.inr (by rw [hw]; exact List.mem_singleton.mpr rfl)
    · refine Or.inl (mem_fresh.mpr ⟨?_, ?_, ?_⟩)
      · rw [below_names]
        exact hmem
      · exact fun hnp => (Goal.Step.names_premise hd halt hp hnp).elim hns hw
      · exact fun hu => (mem_used_below.mp hu).elim hw hnu
  have hcard := (Finset.card_le_card hsub).trans (Finset.card_union_le _ _)
  have hwitness := alt.witness.toList.toFinset_card_le
  have hcount := Goal.Step.quantifiers_premise hd halt hp
  unfold Covers at h ⊢
  omega

/-- A sufficient supply stays sufficient for every premise. -/
theorem Suffices.step {rules : RuleSet} {supply : Supply} {s p : Sequent} {d : Decomposition}
    {alt : Alternative} (h : supply.Suffices s) (hd : Decomposition.of rules supply s = .ok d)
    (halt : alt ∈ d.alternatives) (hp : p ∈ alt.premises) : (supply.below alt).Suffices p := by
  have hnodup : (supply.below alt).names.Nodup := by
    rw [below_names]
    exact h.nodup
  have hcovers := h.covers.step hd halt hp
  rw [Covers, card_fresh hnodup] at hcovers
  exact ⟨hnodup, hcovers⟩

/-- What is enough at a goal is enough at every goal that is reached from it. -/
theorem Covers.reaches {rules : RuleSet} {g g' : Goal} (h : g.supply.Covers g.sequent)
    (hreach : g.Reaches rules g') : g'.supply.Covers g'.sequent := by
  refine hreach.preserves (fun g => g.supply.Covers g.sequent) ?_ h
  rintro _ _ ⟨hd, halt, hp⟩ hcovers
  exact hcovers.step hd halt hp

/-! ## Supplies of given names -/

theorem mem_keepFirst {α : Type} [DecidableEq α] {as : List α} {a : α} :
    a ∈ keepFirst as ↔ a ∈ as := by
  induction as with
  | nil => rfl
  | cons b as ih =>
      by_cases h : a = b
      · simp [keepFirst, h]
      · simp [keepFirst, h, ih]

/-- Nothing is kept twice. -/
theorem nodup_keepFirst {α : Type} [DecidableEq α] (as : List α) : (keepFirst as).Nodup := by
  induction as with
  | nil => exact List.nodup_nil
  | cons a as ih =>
      refine List.nodup_cons.mpr ⟨?_, ih.filter _⟩
      simp

/-- The supply of a list of names has those names, each once, all terms, and
    none of them is used. -/
theorem ofNames_eq_ok {names : List String} {supply : Supply}
    (h : ofNames names = .ok supply) :
    supply = ⟨keepFirst names, []⟩ ∧ ∀ n ∈ names, isTerm n = true := by
  unfold ofNames at h
  split at h
  · cases h
  · rename_i hnone
    cases h
    refine ⟨rfl, fun n hn => ?_⟩
    simpa using List.find?_eq_none.mp hnone n hn

/-- A supply suffices if there are as many different names that are not free in
    the sequent as there are quantifiers. -/
theorem suffices_of_card {names : List String} {supply : Supply} {s : Sequent}
    (h : ofNames names = .ok supply)
    (hcard : s.quantifiers ≤ (names.toFinset \ s.names.toFinset).card) :
    supply.Suffices s := by
  obtain ⟨rfl, -⟩ := ofNames_eq_ok h
  have hnodup : (keepFirst names).Nodup := nodup_keepFirst names
  refine ⟨hnodup, ?_⟩
  have hset : names.toFinset \ s.names.toFinset =
      (fresh ⟨keepFirst names, []⟩ s).toFinset := by
    ext n
    simp [mem_fresh, mem_keepFirst]
  rw [hset, card_fresh hnodup] at hcard
  exact hcard

end Supply

end SequentCalculus
