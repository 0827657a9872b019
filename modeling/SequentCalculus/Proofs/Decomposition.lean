import Mathlib.Algebra.Order.BigOperators.Group.List
import Mathlib.Algebra.Order.Ring.Nat
import Mathlib.Data.List.Perm.Basic
import SequentCalculus.Decomposition

/-! # What one step of decomposition does

    Every operation on sequents is described by what it does to the members
    with their sides, up to order: mixing appends them, a partition deals them
    out, and the principal formula with its context is all of them.  What is
    proved of sequents through their members — names, numbers of quantifiers,
    truth, readability — then needs no second look at the two lists.

    A step is described once: `Inference.Yields` lists the alternatives of each
    kind of rule, and `Decomposition.yields` says that there are no others.  A
    weight of formulas that no rule can raise is then never raised by a step
    (`Decomposition.weigh_premise_le`). -/

namespace SequentCalculus

/-! ## Members with their sides -/

namespace Sequent

theorem sidedMembers_onSide (side : Side) (ps : List Formula) :
    (onSide side ps).sidedMembers = ps.map (side, ·) := by
  cases side <;> simp [onSide, sidedMembers]

/-- The members of two sequents together are those of both, on their sides. -/
theorem sidedMembers_mix (s t : Sequent) :
    (s.mix t).sidedMembers.Perm (s.sidedMembers ++ t.sidedMembers) := by
  simp only [sidedMembers, mix, List.map_append, List.append_assoc]
  refine List.Perm.append_left _ ?_
  rw [← List.append_assoc, ← List.append_assoc]
  exact List.perm_append_comm.append_right _

theorem mem_sidedMembers_mix {s t : Sequent} {m : Side × Formula} :
    m ∈ (s.mix t).sidedMembers ↔ m ∈ s.sidedMembers ∨ m ∈ t.sidedMembers := by
  rw [(sidedMembers_mix s t).mem_iff, List.mem_append]

theorem mem_sidedMembers_onSide {side : Side} {p : Formula} {m : Side × Formula} :
    m ∈ (onSide side [p]).sidedMembers ↔ m = (side, p) := by
  rw [sidedMembers_onSide, List.map_singleton, List.mem_singleton]

/-- Only a list of atoms has no compound formula. -/
theorem splitAtComplex_eq_none {ps : List Formula} (h : splitAtComplex ps = none) :
    ∀ p ∈ ps, p.isAtom = true := by
  induction ps with
  | nil => intro p hp; cases hp
  | cons q ps ih =>
      unfold splitAtComplex at h
      split at h
      · cases h
      · rename_i hq
        intro p hp
        rcases List.mem_cons.mp hp with rfl | hp
        · simpa [Formula.isComplex] using hq
        · exact ih (Option.map_eq_none_iff.mp h) p hp

/-- A sequent without a principal formula is atomic. -/
theorem isAtom_of_principal?_eq_none {s : Sequent} (h : s.principal? = none) :
    ∀ p ∈ s.members, p.isAtom = true := by
  unfold principal? at h
  split at h
  · cases h
  · rename_i hant
    split at h
    · cases h
    · rename_i hcon
      intro p hp
      rcases List.mem_append.mp hp with hp | hp
      · exact splitAtComplex_eq_none hant p hp
      · exact splitAtComplex_eq_none hcon p hp

/-- The principal formula is compound. -/
theorem isComplex_principal {s : Sequent} {m : Principal} (h : s.principal? = some m) :
    m.formula.isComplex = true := by
  unfold principal? at h
  split at h
  · rename_i o ho
    cases h
    exact (eq_of_splitAtComplex ho).2
  · split at h
    · rename_i o ho
      cases h
      exact (eq_of_splitAtComplex ho).2
    · cases h

/-- The principal formula and its context are the members of the sequent. -/
theorem sidedMembers_principal {s : Sequent} {m : Principal} (h : s.principal? = some m) :
    s.sidedMembers.Perm ((m.side, m.formula) :: m.context.sidedMembers) := by
  obtain ⟨xs, ys⟩ := s
  unfold principal? at h
  split at h
  · rename_i o ho
    cases h
    obtain ⟨hxs, -⟩ := eq_of_splitAtComplex ho
    simp only at hxs
    subst hxs
    simp only [sidedMembers, List.map_append, List.map_cons, List.append_assoc, List.cons_append]
    exact List.perm_middle
  · split at h
    · rename_i o ho
      cases h
      obtain ⟨hys, -⟩ := eq_of_splitAtComplex ho
      simp only at hys
      subst hys
      simp only [sidedMembers, List.map_append, List.map_cons]
      rw [← List.append_assoc, ← List.append_assoc]
      exact List.perm_middle
    · cases h

/-- A member is the principal formula or one of the context. -/
theorem mem_sidedMembers_principal {s : Sequent} {m : Principal} (h : s.principal? = some m)
    {e : Side × Formula} :
    e ∈ s.sidedMembers ↔ e = (m.side, m.formula) ∨ e ∈ m.context.sidedMembers := by
  rw [(sidedMembers_principal h).mem_iff, List.mem_cons]

end Sequent

/-- Dealing keeps every member. -/
theorem perm_deal {α : Type} :
    ∀ (as : List α) (k : Nat), ((deal k as).1 ++ (deal k as).2).Perm as := by
  intro as
  induction as with
  | nil => intro k; exact List.Perm.nil
  | cons a as ih =>
      intro k
      have h := ih (k / 2)
      unfold deal
      by_cases hk : k % 2 = 0
      · simpa [hk] using h
      · simp only [hk, if_false]
        exact List.perm_middle.trans (h.cons a)

/-- The parts of a partition are the members of the sequent. -/
theorem Sequent.sidedMembers_partition (s : Sequent) (k : Nat) :
    ((s.partition k).1.sidedMembers ++ (s.partition k).2.sidedMembers).Perm s.sidedMembers := by
  obtain ⟨xs, ys⟩ := s
  have hx := (perm_deal xs k).map (Prod.mk Side.antecedent)
  have hy := (perm_deal ys (k >>> xs.length)).map (Prod.mk Side.consequent)
  rw [List.map_append] at hx hy
  refine List.Perm.trans ?_ (hx.append hy)
  simp only [partition, sidedMembers, List.append_assoc]
  refine List.Perm.append_left _ ?_
  rw [← List.append_assoc, ← List.append_assoc]
  exact List.perm_append_comm.append_right _

/-- A member goes to one of the two parts. -/
theorem Sequent.mem_sidedMembers_partition {s : Sequent} {k : Nat} {m : Side × Formula} :
    m ∈ s.sidedMembers ↔
      m ∈ (s.partition k).1.sidedMembers ∨ m ∈ (s.partition k).2.sidedMembers := by
  rw [← (s.sidedMembers_partition k).mem_iff, List.mem_append]

namespace Sequent

/-- The members of `c` are members of `s`, with their sides and as often as
    they stand there. -/
def Within (c s : Sequent) : Prop :=
  ∃ rest, (c.sidedMembers ++ rest).Perm s.sidedMembers

theorem Within.refl (s : Sequent) : s.Within s :=
  ⟨[], by rw [List.append_nil]⟩

theorem within_partition_left (s : Sequent) (k : Nat) : (s.partition k).1.Within s :=
  ⟨_, s.sidedMembers_partition k⟩

theorem within_partition_right (s : Sequent) (k : Nat) : (s.partition k).2.Within s :=
  ⟨_, List.perm_append_comm.trans (s.sidedMembers_partition k)⟩

/-- What is within a sequent has no other members. -/
theorem Within.mem {c s : Sequent} (h : c.Within s) {m : Side × Formula}
    (hm : m ∈ c.sidedMembers) : m ∈ s.sidedMembers := by
  obtain ⟨rest, hperm⟩ := h
  exact hperm.mem_iff.mp (List.mem_append_left _ hm)

/-- Sums over what is within a sequent are no greater. -/
theorem Within.sum_le {c s : Sequent} (h : c.Within s) (f : Side × Formula → Nat) :
    (c.sidedMembers.map f).sum ≤ (s.sidedMembers.map f).sum := by
  obtain ⟨rest, hperm⟩ := h
  have hsum := (hperm.map f).sum_nat
  rw [List.map_append, List.sum_append] at hsum
  omega

theorem members_eq_map_sidedMembers (s : Sequent) :
    s.members = s.sidedMembers.map Prod.snd := by
  simp [members, sidedMembers, Function.comp_def]

theorem mem_members {s : Sequent} {p : Formula} :
    p ∈ s.members ↔ ∃ side, (side, p) ∈ s.sidedMembers := by
  rw [members_eq_map_sidedMembers, List.mem_map]
  constructor
  · rintro ⟨m, hm, rfl⟩
    exact ⟨m.1, hm⟩
  · rintro ⟨side, hm⟩
    exact ⟨_, hm, rfl⟩

/-- Atomic sequents are those with nothing to decompose. -/
theorem isAtomic_iff {s : Sequent} : s.isAtomic = true ↔ s.principal? = none := by
  rw [isAtomic, List.all_eq_true]
  constructor
  · intro hatom
    cases hm : s.principal? with
    | none => rfl
    | some m =>
        have hmem := hatom m.formula
          (mem_members.mpr ⟨m.side, (mem_sidedMembers_principal hm).mpr (Or.inl rfl)⟩)
        have hcomplex := isComplex_principal hm
        rw [Formula.isComplex, hmem] at hcomplex
        cases hcomplex
  · exact isAtom_of_principal?_eq_none

/-- The members of an atomic sequent are atoms. -/
theorem exists_eq_atom {s : Sequent} (h : s.isAtomic = true) {p : Formula} (hp : p ∈ s.members) :
    ∃ a, p = .atom a := by
  refine Formula.isComplex_eq_false_iff.mp ?_
  rw [Formula.isComplex, List.all_eq_true.mp h p hp]
  rfl

/-- The names of a sequent are those of its members. -/
theorem mem_names {s : Sequent} {n : String} :
    n ∈ s.names ↔ ∃ m ∈ s.sidedMembers, n ∈ m.2.names := by
  simp only [names, members_eq_map_sidedMembers, List.mem_flatMap, List.mem_map]
  constructor
  · rintro ⟨p, ⟨m, hm, rfl⟩, hn⟩
    exact ⟨m, hm, hn⟩
  · rintro ⟨m, hm, hn⟩
    exact ⟨m.2, ⟨m, hm, rfl⟩, hn⟩

end Sequent

/-- There is at least one division, the one with everything on the left. -/
theorem Sequent.partitions?_ne_nil {s : Sequent} {parts : List (Sequent × Sequent)}
    (h : s.partitions? = some parts) : parts ≠ [] := by
  rw [partitions?_eq] at h
  split at h
  · cases h
    rw [ne_eq, List.map_eq_nil_iff, List.range_eq_nil, Nat.one_shiftLeft]
    exact Nat.ne_of_gt (Nat.two_pow_pos _)
  · cases h

/-- The candidates are the fresh names, or the placeholder if there are none. -/
theorem Supply.candidates_eq (supply : Supply) (s : Sequent) :
    supply.candidates s = if supply.fresh s = [] then [placeholder] else supply.fresh s := by
  unfold Supply.candidates
  split
  · rename_i hnil
    rw [if_pos hnil]
  · rename_i hne
    rw [if_neg hne]

/-- There is always a candidate. -/
theorem Supply.candidates_ne_nil (supply : Supply) (s : Sequent) :
    supply.candidates s ≠ [] := by
  rw [Supply.candidates_eq]
  split
  · exact List.cons_ne_nil _ _
  · assumption

/-! ## The alternatives of a rule -/

/-- The formulas that a connective joins. -/
def Formula.operands : Formula → List Formula
  | atom _ => []
  | negation p => [p]
  | binary _ p q => [p, q]
  | quantified _ _ p => [p]

/-- The side on which the left operand of a connective counts: the hypothesis of
    a conditional changes sides. -/
def Operator.leftSide : Operator → Side → Side
  | conditional, side => side.flip
  | _, side => side

/-- The operands of a formula that stands on a side, with the sides on which they
    count. -/
def Formula.signedOperands : Formula → Side → List (Side × Formula)
  | atom _, _ => []
  | negation p, side => [(side.flip, p)]
  | binary op p q, side => [(op.leftSide side, p), (side, q)]
  | quantified _ _ p, side => [(side, p)]

/-- The signed operands of a formula are its operands. -/
theorem Formula.map_snd_signedOperands (p : Formula) (side : Side) :
    (p.signedOperands side).map Prod.snd = p.operands := by
  cases p <;> rfl

namespace Inference

/-- The premises of a rule that has no choice of witnesses. -/
def premises : Inference → List Sequent
  | extend premise => [premise]
  | share left right => [left, right]
  | choose left right => [left, right]
  | divide left right => [left, right]
  | instantiate _ _ _ => []

/-- A premise has operands of the principal formula only, each at most once and on
    the side on which it counts. -/
theorem sublist_signedOperands {rules : RuleSet} {side : Side} {p : Formula} {i : Inference}
    (h : of rules side p = .ok i) {q : Sequent} (hq : q ∈ i.premises) :
    q.sidedMembers.Sublist (p.signedOperands side) := by
  cases p with
  | atom a => cases h
  | negation p =>
      cases h
      rw [List.mem_singleton.mp hq, Sequent.sidedMembers_onSide]
      exact List.Sublist.refl _
  | binary op p r =>
      cases h
      revert hq
      generalize (rules.operator op).get side = d
      -- one case for each entry of the table of rules
      cases op <;> cases side <;> cases d <;>
        simp [ofBinary, premises, Sequent.onSide, Sequent.sidedMembers, Formula.signedOperands,
          Operator.leftSide, Side.flip] <;>
        rintro (rfl | rfl) <;> simp
  | quantified k x p =>
      cases h
      cases hq

/-- A premise has operands of the principal formula as its members, in their order. -/
theorem sublist_operands {rules : RuleSet} {side : Side} {p : Formula} {i : Inference}
    (h : of rules side p = .ok i) {q : Sequent} (hq : q ∈ i.premises) :
    q.members.Sublist p.operands := by
  rw [Sequent.members_eq_map_sidedMembers, ← p.map_snd_signedOperands side]
  exact (sublist_signedOperands h hq).map Prod.snd

/-- Witnesses are chosen for quantifiers only. -/
theorem eq_quantified_of_instantiate {rules : RuleSet} {side side' : Side} {p body : Formula}
    {x : String} (h : of rules side p = .ok (.instantiate side' x body)) :
    side' = side ∧ ∃ k, p = .quantified k x body := by
  cases p with
  | atom a => cases h
  | negation p => cases h
  | binary op p q =>
      exfalso
      revert h
      simp only [of]
      generalize (rules.operator op).get side = d
      cases op <;> cases side <;> cases d <;> simp [ofBinary]
  | quantified k x p =>
      cases h
      exact ⟨rfl, k, rfl⟩

/-- The alternatives that a rule yields in the context of a sequent `s`. -/
inductive Yields (supply : Supply) (s context : Sequent) : Inference → Alternative → Prop
  | extend (premise : Sequent) : Yields supply s context (.extend premise)
      ⟨[context.mix premise], none⟩
  | share (left right : Sequent) : Yields supply s context (.share left right)
      ⟨[context.mix left, context.mix right], none⟩
  | chooseLeft (left right : Sequent) : Yields supply s context (.choose left right)
      ⟨[context.mix left], none⟩
  | chooseRight (left right : Sequent) : Yields supply s context (.choose left right)
      ⟨[context.mix right], none⟩
  | divide (left right : Sequent) (k : Nat) : Yields supply s context (.divide left right)
      ⟨[(context.partition k).1.mix left, (context.partition k).2.mix right], none⟩
  | instantiate (side : Side) (x : String) (body : Formula) {w : String}
      (hw : w ∈ supply.candidates s) : Yields supply s context (.instantiate side x body)
      ⟨[context.mix (.onSide side [body.subst x w])], some w⟩

/-- The alternatives that are computed are those that the rule yields. -/
theorem yields_of_mem {supply : Supply} {s context : Sequent} {i : Inference}
    {alts : List Alternative} (h : i.alternatives supply s context = .ok alts)
    {alt : Alternative} (halt : alt ∈ alts) : i.Yields supply s context alt := by
  cases i with
  | extend premise =>
      cases h
      rw [List.mem_singleton] at halt
      subst halt
      exact .extend premise
  | share left right =>
      cases h
      rw [List.mem_singleton] at halt
      subst halt
      exact .share left right
  | choose left right =>
      cases h
      rcases List.mem_pair.mp halt with rfl | rfl
      · exact .chooseLeft left right
      · exact .chooseRight left right
  | divide left right =>
      simp only [alternatives] at h
      cases hparts : context.partitions? with
      | none => rw [hparts] at h; cases h
      | some parts =>
          rw [hparts] at h
          cases h
          obtain ⟨lr, hlr, rfl⟩ := List.mem_map.mp halt
          obtain ⟨k, rfl⟩ := Sequent.exists_partition hparts hlr
          exact .divide left right k
  | instantiate side x body =>
      cases h
      obtain ⟨w, hw, rfl⟩ := List.mem_map.mp halt
      exact .instantiate side x body hw

/-- Every alternative has one premise or two. -/
theorem Yields.length_premises {supply : Supply} {s context : Sequent} {i : Inference}
    {alt : Alternative} (h : i.Yields supply s context alt) :
    alt.premises.length = 1 ∨ alt.premises.length = 2 := by
  cases h with
  | extend | chooseLeft | chooseRight | instantiate => exact Or.inl rfl
  | share | divide => exact Or.inr rfl

/-- A rule that applies has an alternative: a context has a partition, and a
    quantifier can at least take the placeholder. -/
theorem alternatives_ne_nil {supply : Supply} {s context : Sequent} {i : Inference}
    {alts : List Alternative} (h : i.alternatives supply s context = .ok alts) : alts ≠ [] := by
  cases i with
  | extend | share | choose =>
      cases h
      exact List.cons_ne_nil _ _
  | divide left right =>
      simp only [alternatives] at h
      cases hparts : context.partitions? with
      | none => rw [hparts] at h; cases h
      | some parts =>
          rw [hparts] at h
          cases h
          rw [ne_eq, List.map_eq_nil_iff]
          exact Sequent.partitions?_ne_nil hparts
  | instantiate side x body =>
      cases h
      rw [ne_eq, List.map_eq_nil_iff]
      exact supply.candidates_ne_nil s

/-- Every premise is a part of the context together with a premise of the rule
    or an instance of the quantified formula. -/
theorem Yields.premise_eq {supply : Supply} {s context : Sequent} {i : Inference}
    {alt : Alternative} (h : i.Yields supply s context alt) {p : Sequent}
    (hp : p ∈ alt.premises) :
    ∃ c q : Sequent, p = c.mix q ∧ c.Within context ∧
      (alt.witness = none ∧ q ∈ i.premises ∨
      ∃ side x body w, i = .instantiate side x body ∧ w ∈ supply.candidates s ∧
        alt.witness = some w ∧ q = .onSide side [body.subst x w]) := by
  cases h with
  | extend premise =>
      rw [List.mem_singleton.mp hp]
      exact ⟨context, premise, rfl, .refl _, Or.inl ⟨rfl, by simp [premises]⟩⟩
  | share left right =>
      rcases List.mem_pair.mp hp with rfl | rfl
      · exact ⟨context, left, rfl, .refl _, Or.inl ⟨rfl, by simp [premises]⟩⟩
      · exact ⟨context, right, rfl, .refl _, Or.inl ⟨rfl, by simp [premises]⟩⟩
  | chooseLeft left right =>
      rw [List.mem_singleton.mp hp]
      exact ⟨context, left, rfl, .refl _, Or.inl ⟨rfl, by simp [premises]⟩⟩
  | chooseRight left right =>
      rw [List.mem_singleton.mp hp]
      exact ⟨context, right, rfl, .refl _, Or.inl ⟨rfl, by simp [premises]⟩⟩
  | divide left right k =>
      rcases List.mem_pair.mp hp with rfl | rfl
      · exact ⟨_, left, rfl, context.within_partition_left k,
          Or.inl ⟨rfl, by simp [premises]⟩⟩
      · exact ⟨_, right, rfl, context.within_partition_right k,
          Or.inl ⟨rfl, by simp [premises]⟩⟩
  | instantiate side x body hw =>
      rw [List.mem_singleton.mp hp]
      exact ⟨context, _, rfl, .refl _, Or.inr ⟨side, x, body, _, rfl, hw, rfl, rfl⟩⟩

end Inference

namespace Decomposition

/-- A decomposition that succeeds marks an atomic sequent or applies the rule
    of the principal formula. -/
theorem of_cases {rules : RuleSet} {supply : Supply} {s : Sequent} {d : Decomposition}
    (h : of rules supply s = .ok d) :
    (s.principal? = none ∧ d = .initial) ∨
    ∃ m i alts, s.principal? = some m ∧ Inference.of rules m.side m.formula = .ok i ∧
      i.alternatives supply s m.context = .ok alts ∧ d = .step s.tag alts := by
  unfold of at h
  cases hm : s.principal? with
  | none =>
      rw [hm] at h
      cases h
      exact Or.inl ⟨rfl, rfl⟩
  | some m =>
      rw [hm] at h
      simp only at h
      cases hi : Inference.of rules m.side m.formula with
      | error e => rw [hi] at h; cases h
      | ok i =>
          rw [hi] at h
          simp only at h
          cases ha : i.alternatives supply s m.context with
          | error e => rw [ha] at h; cases h
          | ok alts =>
              rw [ha] at h
              cases h
              exact Or.inr ⟨m, i, alts, rfl, hi, ha, rfl⟩

/-- A decomposition marks nothing but sequents without a compound formula. -/
theorem principal?_of_initial {rules : RuleSet} {supply : Supply} {s : Sequent}
    (h : of rules supply s = .ok .initial) : s.principal? = none := by
  rcases of_cases h with ⟨hm, -⟩ | ⟨m, i, alts, -, -, -, hd⟩
  · exact hm
  · cases hd

/-- A decomposition with alternatives has at least one. -/
theorem alternatives_ne_nil {rules : RuleSet} {supply : Supply} {s : Sequent} {tag : Tag}
    {alts : List Alternative} (h : of rules supply s = .ok (.step tag alts)) : alts ≠ [] := by
  rcases of_cases h with ⟨-, hd⟩ | ⟨m, i, alts', -, -, ha, hd⟩
  · cases hd
  · cases hd
    exact Inference.alternatives_ne_nil ha

/-- A quantified formula is decomposed with every candidate in turn. -/
theorem of_quantified {rules : RuleSet} {supply : Supply} {s : Sequent} {m : Principal}
    {k : Quantifier} {x : String} {body : Formula} (hm : s.principal? = some m)
    (hformula : m.formula = .quantified k x body) :
    of rules supply s = .ok (.step s.tag ((supply.candidates s).map fun w =>
      ⟨[m.context.mix (.onSide m.side [body.subst x w])], some w⟩)) := by
  have hi : Inference.of rules m.side m.formula = .ok (.instantiate m.side x body) := by
    rw [hformula]
    rfl
  unfold of
  rw [hm]
  simp only [hi]
  rfl

/-- Every alternative comes from the rule of the principal formula. -/
theorem yields {rules : RuleSet} {supply : Supply} {s : Sequent} {d : Decomposition}
    (h : of rules supply s = .ok d) {alt : Alternative} (halt : alt ∈ d.alternatives) :
    ∃ m i, s.principal? = some m ∧ Inference.of rules m.side m.formula = .ok i ∧
      i.Yields supply s m.context alt := by
  rcases of_cases h with ⟨-, rfl⟩ | ⟨m, i, alts, hm, hi, ha, rfl⟩
  · cases halt
  · exact ⟨m, i, hm, hi, Inference.yields_of_mem ha halt⟩

/-- Only a quantified formula makes an alternative take a name, and the name is a
    candidate. -/
theorem exists_quantified_of_witness {rules : RuleSet} {supply : Supply} {s : Sequent}
    {d : Decomposition} (h : of rules supply s = .ok d) {alt : Alternative}
    (halt : alt ∈ d.alternatives) {w : String} (hw : alt.witness = some w) :
    (∃ m k x body, s.principal? = some m ∧ m.formula = .quantified k x body) ∧
      w ∈ supply.candidates s := by
  obtain ⟨m, i, hm, hi, hyields⟩ := yields h halt
  cases hyields with
  | @instantiate side x body w' hcandidate =>
      cases hw
      obtain ⟨-, k, hformula⟩ := Inference.eq_quantified_of_instantiate hi
      exact ⟨⟨m, k, x, body, hm, hformula⟩, hcandidate⟩
  | _ => cases hw

end Decomposition

/-! ## Weights -/

theorem total_eq_sum (ns : List Nat) : total ns = ns.sum := by
  induction ns with
  | nil => rfl
  | cons n ns ih => rw [total_cons, ih, List.sum_cons]

namespace Sequent

variable (f : Formula → Nat)

/-- The weight of all members together. -/
def weigh (s : Sequent) : Nat := (s.members.map f).sum

theorem weigh_eq_sum (s : Sequent) : s.weigh f = (s.sidedMembers.map fun m => f m.2).sum := by
  rw [weigh, members_eq_map_sidedMembers, List.map_map]
  rfl

theorem weigh_mix (s t : Sequent) : (s.mix t).weigh f = s.weigh f + t.weigh f := by
  rw [weigh_eq_sum, ((sidedMembers_mix s t).map _).sum_nat, List.map_append, List.sum_append,
    ← weigh_eq_sum, ← weigh_eq_sum]

theorem weigh_onSide (side : Side) (p : Formula) : (onSide side [p]).weigh f = f p := by
  rw [weigh_eq_sum, sidedMembers_onSide]
  simp

/-- A sequent weighs as much as its principal formula and its context. -/
theorem weigh_principal {s : Sequent} {m : Principal} (h : s.principal? = some m) :
    s.weigh f = f m.formula + m.context.weigh f := by
  rw [weigh_eq_sum, ((sidedMembers_principal h).map _).sum_nat, List.map_cons, List.sum_cons,
    ← weigh_eq_sum]

/-- What is within a sequent weighs no more. -/
theorem Within.weigh_le {c s : Sequent} (h : c.Within s) : c.weigh f ≤ s.weigh f := by
  rw [weigh_eq_sum, weigh_eq_sum]
  exact h.sum_le _

end Sequent

/-- If no formula weighs less than its operands together, and a quantified formula
    weighs more than its instances by some amount, then no premise weighs more than
    the sequent, and a premise for which a name was taken less by that amount. -/
theorem Decomposition.weigh_premise_le {f : Formula → Nat} {c : Nat}
    (hoperands : ∀ p : Formula, (p.operands.map f).sum ≤ f p)
    (hinstance : ∀ k x body w, f (body.subst x w) + c ≤ f (.quantified k x body))
    {rules : RuleSet} {supply : Supply} {s p : Sequent} {d : Decomposition} {alt : Alternative}
    (hd : of rules supply s = .ok d) (halt : alt ∈ d.alternatives) (hp : p ∈ alt.premises) :
    p.weigh f + c * alt.witness.toList.length ≤ s.weigh f := by
  obtain ⟨m, i, hm, hi, hyields⟩ := yields hd halt
  obtain ⟨part, q, rfl, hpart, hq⟩ := hyields.premise_eq hp
  have hcontext := hpart.weigh_le f
  rw [Sequent.weigh_mix, Sequent.weigh_principal f hm]
  rcases hq with ⟨hnone, hq⟩ | ⟨side, x, body, w, rfl, -, hw, rfl⟩
  · have hsub := (Inference.sublist_operands hi hq).map f
    have hle : q.weigh f ≤ f m.formula :=
      (hsub.sum_le_sum fun _ _ => Nat.zero_le _).trans (hoperands _)
    rw [hnone, Option.toList_none, List.length_nil]
    omega
  · obtain ⟨-, k, hform⟩ := Inference.eq_quantified_of_instantiate hi
    have hle := hinstance k x body w
    rw [hw, hform, Sequent.weigh_onSide, Option.toList_some, List.length_singleton]
    omega

end SequentCalculus
