import SequentCalculus.Proofs.Renaming

/-! # The order of the supplied names does not matter

    Names may be supplied in any order and more than once.  What a quantifier is
    tried with is then the same up to order (`Supply.Reordered.candidates_perm`), so
    the alternatives of a decomposition are, and below each of them the supplies
    differ in order only.  Two trees that are grown side by side in this way differ
    in the order of the branches at their nodes, at all levels
    (`Sequent.grow_reordered`).

    Sums, maxima and searches do not see that order (`ProofTree.Shuffled.fold_eq`),
    not even sums that stay at a bound.  And since one tree exists if the other one
    does, it makes no difference at which of several failing premises growth is given
    up. -/

namespace SequentCalculus

/-! ## Supplies -/

namespace Supply

/-- The same supply with its names in another order. -/
structure Reordered (a b : Supply) : Prop where
  names : a.names.Perm b.names
  used : a.used = b.used

namespace Reordered

variable {a b : Supply}

theorem symm (h : a.Reordered b) : b.Reordered a :=
  ⟨h.names.symm, h.used.symm⟩

/-- The supplies left to premises are reordered in the same way. -/
theorem below (h : a.Reordered b) (alt : Alternative) : (a.below alt).Reordered (b.below alt) := by
  rw [below_eq, below_eq]
  refine ⟨h.names, ?_⟩
  rw [h.used]

/-- The same names are fresh. -/
theorem fresh_perm (h : a.Reordered b) (s : Sequent) : (a.fresh s).Perm (b.fresh s) := by
  rw [fresh, fresh, h.used]
  exact h.names.filter _

/-- A quantifier is tried with the same names. -/
theorem candidates_perm (h : a.Reordered b) (s : Sequent) :
    (a.candidates s).Perm (b.candidates s) := by
  have hfresh := h.fresh_perm s
  rw [candidates_eq, candidates_eq]
  by_cases hnil : a.fresh s = []
  · -- then neither supply has a name left, and both fall back on the placeholder
    have hnil' : b.fresh s = [] := (hnil ▸ hfresh).nil_eq.symm
    rw [if_pos hnil, if_pos hnil']
  · have hnil' : b.fresh s ≠ [] := fun heq => hnil (heq ▸ hfresh).eq_nil
    rw [if_neg hnil, if_neg hnil']
    exact hfresh

end Reordered

theorem ofNames_of_isTerm {names : List String} (h : ∀ n ∈ names, isTerm n = true) :
    ofNames names = .ok ⟨keepFirst names, []⟩ := by
  have hnone : names.find? (fun n => !isTerm n) = none := by
    rw [List.find?_eq_none]
    intro n hn
    rw [h n hn]
    exact Bool.false_ne_true
  rw [ofNames, hnone]

/-- Lists with the same names, however often and in whatever order, make the same
    supply up to order. -/
theorem reordered_keepFirst {names names' : List String} (h : ∀ n, n ∈ names ↔ n ∈ names') :
    Reordered ⟨keepFirst names, []⟩ ⟨keepFirst names', []⟩ := by
  refine ⟨?_, rfl⟩
  rw [List.perm_ext_iff_of_nodup (nodup_keepFirst names) (nodup_keepFirst names')]
  intro n
  rw [mem_keepFirst, mem_keepFirst]
  exact h n

end Supply

/-! ## One step -/

/-- A rule has the same alternatives, in another order. -/
theorem Inference.alternatives_reordered {a b : Supply} (h : a.Reordered b) {s context : Sequent}
    {i : Inference} {alts : List Alternative} (ha : i.alternatives a s context = .ok alts) :
    ∃ alts', i.alternatives b s context = .ok alts' ∧ alts'.Perm alts := by
  cases i with
  | instantiate side x body =>
      cases ha
      exact ⟨_, rfl, (h.candidates_perm s).symm.map _⟩
  | _ => exact ⟨alts, ha, .refl _⟩

namespace Decomposition

variable {rules : RuleSet} {a b : Supply} {s : Sequent}

theorem of_initial_reordered (b : Supply) (ha : of rules a s = .ok .initial) :
    of rules b s = .ok .initial := by
  rw [of, principal?_of_initial ha]

/-- A step with a reordered supply is the same up to the order of its alternatives. -/
theorem of_step_reordered (h : a.Reordered b) {tag : Tag} {alts : List Alternative}
    (ha : of rules a s = .ok (.step tag alts)) :
    ∃ alts', of rules b s = .ok (.step tag alts') ∧ alts'.Perm alts := by
  rcases of_cases ha with ⟨-, hne⟩ | ⟨m, i, alts₀, hm, hi, halts, heq⟩
  · cases hne
  · cases heq
    obtain ⟨alts', halts', hperm⟩ := Inference.alternatives_reordered h halts
    refine ⟨alts', ?_, hperm⟩
    simp only [of, hm, hi, halts']

end Decomposition

/-! ## Trees -/

/-- The same tree with the branches of its nodes in another order, at any level. -/
inductive ProofTree.Shuffled : ProofTree → ProofTree → Prop
  | node {root : Sequent} {branches shuffled branches' : List (Branch ProofTree)} {grown : Bool}
      (hbranches : List.Forall₂ (Branch.Related ProofTree.Shuffled) branches shuffled)
      (hperm : shuffled.Perm branches') :
      Shuffled (.node root branches grown) (.node root branches' grown)

/-- Related members that have something in common with a third one each. -/
theorem forall₂_split {α β γ : Type} {R : α → β → Prop} {P : α → γ → Prop} {Q : β → γ → Prop}
    {xs : List α} {ys : List β} (h : List.Forall₂ R xs ys)
    (hsplit : ∀ x y, R x y → ∃ z, P x z ∧ Q y z) :
    ∃ zs, List.Forall₂ P xs zs ∧ List.Forall₂ Q ys zs := by
  induction h with
  | nil => exact ⟨[], .nil, .nil⟩
  | cons hxy _ ih =>
      obtain ⟨z, hxz, hyz⟩ := hsplit _ _ hxy
      obtain ⟨zs, hxs, hys⟩ := ih
      exact ⟨z :: zs, .cons hxz hxs, .cons hyz hys⟩

/-- If a tree can be grown with one supply, then it can with the same supply in
    another order, and the two are the same up to the order of branches. -/
theorem Sequent.grow_reordered {rules : RuleSet} {a b : Supply} {s : Sequent} {t : ProofTree}
    (h : a.Reordered b) (hgrow : s.grow rules a = .ok t) :
    ∃ u, s.grow rules b = .ok u ∧ t.Shuffled u := by
  refine grow_induction (motive := fun a s t => ∀ b, a.Reordered b →
    ∃ u, s.grow rules b = .ok u ∧ t.Shuffled u) ?_ ?_ hgrow b h
  · intro a s hd b _
    exact ⟨_, grow_of_initial (Decomposition.of_initial_reordered b hd),
      .node (.cons .initial .nil) (.refl _)⟩
  · intro a s tag alts branches hd hbs b h
    obtain ⟨alts', hd', hperm⟩ := Decomposition.of_step_reordered h hd
    -- first the branches for the same alternatives in the same order
    have hbranch : ∀ (alt : Alternative) (branch : Branch ProofTree),
        Branch.Grows (fun a s t => ∀ b, a.Reordered b →
          ∃ u, s.grow rules b = .ok u ∧ t.Shuffled u) a alt branch →
        ∃ branch', Branch.Grows (fun supply p u => p.grow rules supply = .ok u) b alt branch' ∧
          branch.Related ProofTree.Shuffled branch' := by
      rintro alt _ ⟨ts, rfl, hts⟩
      obtain ⟨us, hgrown, hshuffled⟩ := forall₂_split hts fun p t ht => ht _ (h.below alt)
      exact ⟨.premises us, ⟨us, rfl, hgrown⟩, .premises hshuffled⟩
    obtain ⟨shuffled, hgrown, hshuffled⟩ := forall₂_split hbs hbranch
    -- and then these branches in the order of the other alternatives
    obtain ⟨branches', hgrown', hperm'⟩ := List.perm_comp_forall₂ hperm hgrown
    exact ⟨.node s branches' true,
      grow_eq_ok_iff.mpr (Or.inr ⟨tag, alts', branches', hd', hgrown', rfl⟩),
      .node hshuffled hperm'.symm⟩

/-! ## Questions that do not see the order -/

theorem Branch.eq_of_forall₂_related {α : Type} {bs cs : List (Branch α)}
    (h : List.Forall₂ (Branch.Related Eq) bs cs) : bs = cs := by
  have heq : List.Forall₂ Eq bs cs := by
    refine h.imp ?_
    rintro _ _ (_ | hts)
    · rfl
    · rw [List.forall₂_eq_eq_eq] at hts
      rw [hts]
  rwa [List.forall₂_eq_eq_eq] at heq

/-- Of three numbers that are added up to a bound the last two may change places. -/
theorem boundedAdd_right_comm (l m n : Nat) :
    boundedAdd (boundedAdd l m) n = boundedAdd (boundedAdd l n) m := by
  simp only [boundedAdd]
  omega

namespace ProofTree.Shuffled

variable {t t' : ProofTree}

/-- A relation that each node keeps if its branches keep it in any order holds
    between the values of the two trees. -/
theorem fold_rel {α : Type} {f : Sequent → List (Branch α) → Bool → α} {Q : α → α → Prop}
    (hf : ∀ root bs cs ds grown, List.Forall₂ (Branch.Related Q) bs cs → cs.Perm ds →
      Q (f root bs grown) (f root ds grown)) (h : t.Shuffled t') : Q (t.fold f) (t'.fold f) := by
  induction t using ProofTree.induction generalizing t' with
  | node root branches grown ih =>
      cases h with
      | @node _ _ shuffled branches' _ hbranches hperm =>
          rw [fold_node, fold_node]
          refine hf root _ (shuffled.map (Branch.map (fold f))) _ grown ?_ (hperm.map _)
          rw [List.forall₂_map_left_iff, List.forall₂_map_right_iff]
          refine forall₂_imp_of_mem hbranches ?_
          intro b hb b' hbb'
          cases hbb' with
          | initial => exact .initial
          | premises hts =>
              refine .premises ?_
              rw [List.forall₂_map_left_iff, List.forall₂_map_right_iff]
              exact forall₂_imp_of_mem hts fun c hc c' hcc' => ih _ hb c hc hcc'

/-- What does not depend on the order of branches at a node does not depend on it in
    the whole tree. -/
theorem fold_eq {α : Type} {f : Sequent → List (Branch α) → Bool → α}
    (hf : ∀ root bs ds grown, bs.Perm ds → f root bs grown = f root ds grown)
    (h : t.Shuffled t') : t.fold f = t'.fold f := by
  refine h.fold_rel fun root bs cs ds grown hbs hperm => ?_
  rw [Branch.eq_of_forall₂_related hbs]
  exact hf root cs ds grown hperm

theorem isClosed_eq (h : t.Shuffled t') : t.isClosed = t'.isClosed := by
  refine h.fold_eq fun root bs ds grown hperm => ?_
  rw [Bool.eq_iff_iff, List.any_eq_true, List.any_eq_true]
  exact exists_congr fun b => and_congr_left fun _ => hperm.mem_iff

theorem alternatives_eq (h : t.Shuffled t') : t.alternatives = t'.alternatives := by
  refine h.fold_eq fun root bs ds grown hperm => ?_
  cases grown with
  | false => rfl
  | true => exact hperm.foldl_eq' (fun b _ c _ n => boundedAdd_right_comm n _ _) 0

theorem depth_eq (h : t.Shuffled t') : t.depth = t'.depth := by
  refine h.fold_eq fun root bs ds grown hperm => ?_
  exact ((hperm.flatMap_right Branch.children).map (1 + ·)).foldr_eq 0

theorem leafCount_eq (h : t.Shuffled t') : t.leafCount = t'.leafCount := by
  refine h.fold_eq fun root bs ds grown hperm => ?_
  rw [total_eq_sum, total_eq_sum, (hperm.flatMap_right Branch.children).sum_nat]

/-- The leaves are the same up to order. -/
theorem leaves_perm (h : t.Shuffled t') : t.leaves.Perm t'.leaves := by
  refine h.fold_rel fun root bs cs ds grown hbs hperm => ?_
  have hchildren : List.Forall₂ List.Perm (bs.flatMap Branch.children)
      (cs.flatMap Branch.children) := by
    refine List.rel_flatMap hbs ?_
    rintro _ _ (_ | hts)
    · exact .nil
    · exact hts
  have hflatten := perm_flatMap_of_forall₂ (f := id) (g := id) hchildren.flip
  rw [List.flatMap_id, List.flatMap_id] at hflatten
  have hperm' := hperm.flatMap_right Branch.children
  have hempty : (bs.flatMap Branch.children).isEmpty = (ds.flatMap Branch.children).isEmpty := by
    rw [Bool.eq_iff_iff, List.isEmpty_iff_length_eq_zero, List.isEmpty_iff_length_eq_zero,
      hchildren.length_eq, hperm'.length_eq]
  rw [leavesOf, leavesOf, hempty]
  split
  · exact .refl _
  · exact hflatten.trans hperm'.flatten

end ProofTree.Shuffled

/-- **The order and repetition of the supplied names is immaterial.**  Two lists of
    valid names with the same members both make a supply, and from any sequent growth
    fails with both supplies or gives two trees that differ in the order of branches
    only.  These are closed together, have the same number of derivations, the same
    depth and the same number of leaves, and the same leaves up to their order. -/
theorem ProofTree.shuffled_of_sameNames (rules : RuleSet) (s : Sequent) {names names' : List String}
    (hvalid : ∀ n ∈ names, isTerm n = true) (hsame : ∀ n, n ∈ names ↔ n ∈ names') :
    ∃ supply supply', Supply.ofNames names = .ok supply ∧ Supply.ofNames names' = .ok supply' ∧
      ((∃ e e', (ofSequent s).grow rules supply = .error e ∧
          (ofSequent s).grow rules supply' = .error e') ∨
        ∃ t t', (ofSequent s).grow rules supply = .ok t ∧
          (ofSequent s).grow rules supply' = .ok t' ∧
          t.Shuffled t' ∧ t.isClosed = t'.isClosed ∧ t.alternatives = t'.alternatives ∧
          t.depth = t'.depth ∧ t.leafCount = t'.leafCount ∧ t.leaves.Perm t'.leaves) := by
  have hvalid' : ∀ n ∈ names', isTerm n = true := fun n hn => hvalid n ((hsame n).mpr hn)
  have hreordered := Supply.reordered_keepFirst hsame
  refine ⟨_, _, Supply.ofNames_of_isTerm hvalid, Supply.ofNames_of_isTerm hvalid', ?_⟩
  rw [grow_ofSequent, grow_ofSequent]
  cases hgrow : s.grow rules ⟨keepFirst names, []⟩ with
  | ok t =>
      obtain ⟨t', hgrow', hshuffled⟩ := Sequent.grow_reordered hreordered hgrow
      exact Or.inr ⟨t, t', rfl, hgrow', hshuffled, hshuffled.isClosed_eq, hshuffled.alternatives_eq,
        hshuffled.depth_eq, hshuffled.leafCount_eq, hshuffled.leaves_perm⟩
  | error e =>
      cases hgrow' : s.grow rules ⟨keepFirst names', []⟩ with
      | error e' => exact Or.inl ⟨e, e', rfl, rfl⟩
      | ok t' =>
          -- a tree with the one supply would be one with the other
          obtain ⟨t, ht, -⟩ := Sequent.grow_reordered hreordered.symm hgrow'
          rw [hgrow] at ht
          cases ht

/-- Below `∀x ∃y R<x, y>; ` the names `a` and `b` are taken in either order, and which
    comes first is seen at the first leaf only. -/
theorem ProofTree.shuffled_everyRelated :
    ∃ t t', (ofSequent (Sequent.everyRelated "x" "y")).grow (RuleSet.uniform .multiplicative)
        ⟨["a", "b"], []⟩ = .ok t ∧
      (ofSequent (Sequent.everyRelated "x" "y")).grow (RuleSet.uniform .multiplicative)
        ⟨["b", "a"], []⟩ = .ok t' ∧
      t.leaves.head? = some ⟨[.atom ⟨"R", ["a", "b"]⟩], []⟩ ∧
      t'.leaves.head? = some ⟨[.atom ⟨"R", ["b", "a"]⟩], []⟩ ∧
      t.Shuffled t' ∧ t.alternatives = t'.alternatives ∧ t.leaves.Perm t'.leaves := by
  have hfirst : ((ofSequent (Sequent.everyRelated "x" "y")).grow (RuleSet.uniform .multiplicative)
      ⟨["a", "b"], []⟩).toOption.map (·.leaves.head?) =
      some (some ⟨[.atom ⟨"R", ["a", "b"]⟩], []⟩) := by decide_cbv
  have hfirst' : ((ofSequent (Sequent.everyRelated "x" "y")).grow (RuleSet.uniform .multiplicative)
      ⟨["b", "a"], []⟩).toOption.map (·.leaves.head?) =
      some (some ⟨[.atom ⟨"R", ["b", "a"]⟩], []⟩) := by decide_cbv
  have hsame : ∀ n, n ∈ ["a", "b"] ↔ n ∈ ["b", "a", "b"] := by
    intro n
    simp only [List.mem_cons, List.not_mem_nil, or_false]
    tauto
  obtain ⟨supply, supply', hnames, hnames', hgrow⟩ :=
    shuffled_of_sameNames (RuleSet.uniform .multiplicative) (Sequent.everyRelated "x" "y")
      (by decide) hsame
  obtain rfl : Supply.mk ["a", "b"] [] = supply := Except.ok.inj hnames
  obtain rfl : Supply.mk ["b", "a"] [] = supply' := Except.ok.inj hnames'
  rcases hgrow with ⟨e, e', he, -⟩ | ⟨t, t', ht, ht', hshuffled, -, hcount, -, -, hleaves⟩
  · rw [he] at hfirst
    cases hfirst
  · rw [ht] at hfirst
    rw [ht'] at hfirst'
    exact ⟨t, t', ht, ht', Option.some.inj hfirst, Option.some.inj hfirst', hshuffled, hcount,
      hleaves⟩

end SequentCalculus
