import SequentCalculus.ProofTree.Queries
import SequentCalculus.ProofTree.Split
import SequentCalculus.Proofs.Growth
import SequentCalculus.Storage.Record

/-! # The shapes of proof trees

    Decomposition marks an atomic sequent and gives any other sequent branches
    of one or two premises.  So the nodes of a tree on which growth has worked,
    completely or not at all, have one of these shapes (`ProofTree.Conforms`).

    In a tree that has been grown to the end nothing is left to do: every leaf
    is marked and every other node has a branch (`ProofTree.IsComplete`), and no
    path is longer than the root has connectives, since each rule on it removes
    one.

    Where all nodes conform, closedness is what it seems.  A closed tree has a
    derivation among those it splits into with an atom on both sides of every
    leaf (`ProofTree.exists_derivation_of_isClosed`). -/

namespace SequentCalculus

/-! ## Induction and folds -/

/-- A property of trees follows from the same property of the children. -/
theorem ProofTree.induction {motive : ProofTree → Prop}
    (node : ∀ root branches grown, (∀ b ∈ branches, ∀ c ∈ b.children, motive c) →
      motive (.node root branches grown)) (t : ProofTree) : motive t := by
  refine @ProofTree.rec motive (fun bs => ∀ b ∈ bs, ∀ c ∈ b.children, motive c)
    (fun b => ∀ c ∈ b.children, motive c) (fun ts => ∀ c ∈ ts, motive c)
    node ?_ ?_ ?_ ?_ ?_ ?_ t
  · exact fun _ hb => nomatch hb
  · exact fun b bs hb hbs => List.forall_mem_cons.mpr ⟨hb, hbs⟩
  · exact fun _ hc => nomatch hc
  · exact fun ts hts => hts
  · exact fun _ hc => nomatch hc
  · exact fun t ts ht hts => List.forall_mem_cons.mpr ⟨ht, hts⟩

theorem Branch.children_map {α β : Type} (f : α → β) (b : Branch α) :
    (b.map f).children = b.children.map f := by
  cases b <;> rfl

/-- Where all children are replaced by their values, a child is a value. -/
theorem Branch.exists_of_mem_map {α β : Type} {f : α → β} {bs : List (Branch α)} {b : Branch β}
    {y : β} (hb : b ∈ bs.map (Branch.map f)) (hy : y ∈ b.children) :
    ∃ b ∈ bs, ∃ c ∈ b.children, y = f c := by
  obtain ⟨b, hmem, rfl⟩ := List.mem_map.mp hb
  rw [children_map] at hy
  obtain ⟨c, hc, rfl⟩ := List.mem_map.mp hy
  exact ⟨b, hmem, c, hc, rfl⟩

theorem largest_le_iff {ns : List Nat} {m : Nat} : largest ns ≤ m ↔ ∀ n ∈ ns, n ≤ m := by
  induction ns with
  | nil => simp [largest]
  | cons n ns ih =>
      have hcons : largest (n :: ns) = max n (largest ns) := rfl
      rw [hcons, Nat.max_le, ih, List.forall_mem_cons]

theorem le_largest {ns : List Nat} {n : Nat} (h : n ∈ ns) : n ≤ largest ns :=
  largest_le_iff.mp (Nat.le_refl _) n h

namespace ProofTree

theorem depth_node (root : Sequent) (branches : List (Branch ProofTree)) (grown : Bool) :
    (node root branches grown).depth =
      largest ((branches.flatMap Branch.children).map fun c => 1 + c.depth) := by
  have hdepth : ∀ t : ProofTree, t.depth = t.fold fun _ branches _ =>
      largest ((branches.flatMap Branch.children).map (1 + ·)) := fun _ => rfl
  rw [hdepth, fold_node, List.flatMap_map, List.map_flatMap, List.map_flatMap]
  simp only [Branch.children_map, List.map_map]
  rfl

/-- A child is less deep than its tree. -/
theorem depth_lt_node {root : Sequent} {branches : List (Branch ProofTree)} {grown : Bool}
    {b : Branch ProofTree} (hb : b ∈ branches) {c : ProofTree} (hc : c ∈ b.children) :
    c.depth < (node root branches grown).depth := by
  have hle : 1 + c.depth ≤ (node root branches grown).depth := by
    rw [depth_node]
    exact le_largest (List.mem_map_of_mem (List.mem_flatMap.mpr ⟨b, hb, hc⟩))
  omega

/-- A tree is at most as deep as a number if its children are less deep. -/
theorem depth_node_le {root : Sequent} {branches : List (Branch ProofTree)} {grown : Bool}
    {n : Nat} (h : ∀ b ∈ branches, ∀ c ∈ b.children, c.depth < n) :
    (node root branches grown).depth ≤ n := by
  rw [depth_node, largest_le_iff, List.forall_mem_map]
  intro c hc
  obtain ⟨b, hb, hc⟩ := List.mem_flatMap.mp hc
  have hlt := h b hb c hc
  omega

/-- A node is closed by a mark on a sequent with an atom on both sides, or by a
    branch whose premises are all closed. -/
theorem isClosed_node_iff {root : Sequent} {branches : List (Branch ProofTree)} {grown : Bool} :
    (node root branches grown).isClosed = true ↔
      (.initial ∈ branches ∧ root.isIdentity = true) ∨
      ∃ ts, .premises ts ∈ branches ∧ ∀ t ∈ ts, t.isClosed = true := by
  rw [isClosed, fold_node, List.any_map, List.any_eq_true]
  constructor
  · rintro ⟨b, hb, hclosed⟩
    cases b with
    | initial => exact Or.inl ⟨hb, hclosed⟩
    | premises ts => exact Or.inr ⟨ts, hb, by simpa [Branch.map] using hclosed⟩
  · rintro (⟨hb, hidentity⟩ | ⟨ts, hb, hts⟩)
    · exact ⟨.initial, hb, hidentity⟩
    · exact ⟨.premises ts, hb, by simpa [Branch.map] using hts⟩

/-- A leaf is closed if some atom stands on both sides. -/
theorem isClosed_initial (s : Sequent) :
    (node s [.initial] true).isClosed = s.isIdentity := by
  rw [Bool.eq_iff_iff, isClosed_node_iff]
  simp

end ProofTree

/-! ## Splitting -/

theorem mem_splitBranches {root : Sequent} {branches : List (Branch ProofTree)} {d : ProofTree} :
    d ∈ splitBranches root branches ↔ ∃ b ∈ branches, d ∈ splitBranch root b := by
  induction branches with
  | nil => simp [splitBranches]
  | cons b bs ih => rw [splitBranches, List.mem_append, ih, List.exists_mem_cons_iff]

/-- A choice has one derivation for each of the trees. -/
theorem mem_splitTrees {ts us : List ProofTree} :
    us ∈ splitTrees ts ↔ List.Forall₂ (fun t u => u ∈ t.split) ts us := by
  induction ts generalizing us with
  | nil => rw [splitTrees, List.mem_singleton, List.forall₂_nil_left_iff]
  | cons t ts ih =>
      rw [splitTrees, List.mem_flatMap, List.forall₂_cons_left_iff]
      constructor
      · rintro ⟨u, hu, hmem⟩
        obtain ⟨us, hus, rfl⟩ := List.mem_map.mp hmem
        exact ⟨u, us, hu, ih.mp hus, rfl⟩
      · rintro ⟨u, us, hu, hus, rfl⟩
        exact ⟨u, hu, List.mem_map.mpr ⟨us, ih.mpr hus, rfl⟩⟩

/-- A derivation of a grown tree is its mark, or a branch with one derivation for
    each premise. -/
theorem ProofTree.mem_split_node {root : Sequent} {branches : List (Branch ProofTree)}
    {d : ProofTree} :
    d ∈ (node root branches true).split ↔
      (.initial ∈ branches ∧ d = ofBranches root [.initial]) ∨
      ∃ ts us, .premises ts ∈ branches ∧ List.Forall₂ (fun t u => u ∈ t.split) ts us ∧
        d = ofBranches root [.premises us] := by
  rw [split, mem_splitBranches]
  constructor
  · rintro ⟨b, hb, hd⟩
    cases b with
    | initial => exact Or.inl ⟨hb, List.mem_singleton.mp hd⟩
    | premises ts =>
        obtain ⟨us, hus, rfl⟩ := List.mem_map.mp hd
        exact Or.inr ⟨ts, us, hb, mem_splitTrees.mp hus, rfl⟩
  · rintro (⟨hb, rfl⟩ | ⟨ts, us, hb, hus, rfl⟩)
    · exact ⟨.initial, hb, List.mem_singleton_self _⟩
    · exact ⟨.premises ts, hb, List.mem_map.mpr ⟨us, mem_splitTrees.mpr hus, rfl⟩⟩

/-! ## Shapes -/

theorem checkShape_eq_ok_iff {root : Sequent} {counts : List Nat} :
    checkShape root counts = .ok () ↔ isShape root counts = true := by
  unfold checkShape
  split
  · rename_i h
    exact ⟨fun _ => h, fun _ => rfl⟩
  · rename_i h
    constructor
    · intro hok
      cases hok
    · intro hshape
      exact absurd hshape h

namespace ProofTree

/-- The branches of the root have a shape that decomposition produces, and the
    root counts as grown if there are any. -/
structure IsShaped (t : ProofTree) : Prop where
  shape : isShape t.root (t.branches.map fun b => b.children.length) = true
  childless : ∀ b ∈ t.branches, b.children = [] → b = .initial
  grown : t.isGrown = !t.branches.isEmpty

/-- The root conforms to decomposition: it counts as grown if it has branches,
    an atomic sequent has a mark at most, and each branch of any other sequent
    has one or two premises. -/
structure Conforms (t : ProofTree) : Prop where
  grown : t.isGrown = true ↔ t.branches ≠ []
  atomic : t.root.isAtomic = true → t.branches = [] ∨ t.branches = [.initial]
  compound : t.root.isAtomic = false →
    ∀ b ∈ t.branches, ∃ ts, b = .premises ts ∧ (ts.length = 1 ∨ ts.length = 2)

/-- Nothing is left to do at the root: it has been grown, an atomic sequent has
    its mark, and any other sequent has branches, each of one or two premises. -/
structure IsComplete (t : ProofTree) : Prop where
  grown : t.isGrown = true
  atomic : t.root.isAtomic = true → t.branches = [.initial]
  compound : t.root.isAtomic = false → t.branches ≠ [] ∧
    ∀ b ∈ t.branches, ∃ ts, b = .premises ts ∧ (ts.length = 1 ∨ ts.length = 2)

/-- A node without children. -/
def IsLeaf (t : ProofTree) : Prop := ∀ b ∈ t.branches, b.children = []

theorem isGrown_eq_iff {t : ProofTree} :
    t.isGrown = !t.branches.isEmpty ↔ (t.isGrown = true ↔ t.branches ≠ []) := by
  cases t.isGrown <;> cases t.branches <;> simp

/-- The numbers of premises allowed say which branches a compound sequent may
    have. -/
theorem isShape_iff_of_compound {root : Sequent} (h : root.isAtomic = false)
    {branches : List (Branch ProofTree)} :
    isShape root (branches.map fun b => b.children.length) = true ↔
      ∀ b ∈ branches, ∃ ts, b = .premises ts ∧ (ts.length = 1 ∨ ts.length = 2) := by
  rw [isShape, h, if_neg Bool.false_ne_true, List.all_map, List.all_eq_true]
  refine forall₂_congr fun b _ => ?_
  cases b with
  | initial => simp [Branch.children]
  | premises ts => simp [Branch.children]

/-- The numbers of premises allowed say which branches an atomic sequent may
    have, but do not tell the mark from a branch that lacks premises. -/
theorem isShape_iff_of_atomic {root : Sequent} (h : root.isAtomic = true)
    {branches : List (Branch ProofTree)} :
    isShape root (branches.map fun b => b.children.length) = true ↔
      branches = [] ∨ branches = [.initial] ∨ branches = [.premises []] := by
  rw [isShape, h, if_pos rfl, Bool.or_eq_true, beq_iff_eq, beq_iff_eq, List.map_eq_nil_iff,
    List.map_eq_singleton_iff]
  constructor
  · rintro (hnil | ⟨b, hb, hlength⟩)
    · exact Or.inl hnil
    · have hchildren := List.eq_nil_of_length_eq_zero hlength
      cases b with
      | initial => exact Or.inr (Or.inl hb)
      | premises ts => exact Or.inr (Or.inr (by rw [hb, show ts = [] from hchildren]))
  · rintro (hnil | hinitial | hempty)
    · exact Or.inl hnil
    · exact Or.inr ⟨_, hinitial, rfl⟩
    · exact Or.inr ⟨_, hempty, rfl⟩

/-- To have one of the shapes is to conform. -/
theorem isShaped_iff_conforms {t : ProofTree} : t.IsShaped ↔ t.Conforms := by
  constructor
  · rintro ⟨hshape, hchildless, hgrown⟩
    refine ⟨isGrown_eq_iff.mp hgrown, ?_, ?_⟩
    · intro hatomic
      rcases (isShape_iff_of_atomic hatomic).mp hshape with hnil | hinitial | hempty
      · exact Or.inl hnil
      · exact Or.inr hinitial
      · -- an empty list of premises is no mark
        have hb : .premises [] ∈ t.branches := by
          rw [hempty]
          exact List.mem_singleton_self _
        cases hchildless _ hb rfl
    · intro hcompound
      exact (isShape_iff_of_compound hcompound).mp hshape
  · rintro ⟨hgrown, hatomic, hcompound⟩
    cases hroot : t.root.isAtomic with
    | true =>
        have hbranches := hatomic hroot
        refine ⟨(isShape_iff_of_atomic hroot).mpr (hbranches.imp_right Or.inl), ?_,
          isGrown_eq_iff.mpr hgrown⟩
        intro b hb _
        rcases hbranches with hnil | hinitial
        · rw [hnil] at hb
          cases hb
        · rw [hinitial] at hb
          exact List.mem_singleton.mp hb
    | false =>
        have hbranches := hcompound hroot
        refine ⟨(isShape_iff_of_compound hroot).mpr hbranches, ?_, isGrown_eq_iff.mpr hgrown⟩
        intro b hb hnil
        obtain ⟨ts, rfl, hlength⟩ := hbranches b hb
        rw [show ts = [] from hnil] at hlength
        rcases hlength with h | h <;> cases h

theorem Conforms.isComplete {t : ProofTree} (h : t.Conforms) (hgrown : t.isGrown = true) :
    t.IsComplete := by
  have hbranches := h.grown.mp hgrown
  refine ⟨hgrown, ?_, ?_⟩
  · intro hatomic
    exact (h.atomic hatomic).resolve_left hbranches
  · intro hcompound
    exact ⟨hbranches, h.compound hcompound⟩

/-- Only atomic sequents bear the mark. -/
theorem Conforms.isAtomic {t : ProofTree} (h : t.Conforms) (hb : .initial ∈ t.branches) :
    t.root.isAtomic = true := by
  cases hroot : t.root.isAtomic with
  | true => rfl
  | false =>
      obtain ⟨ts, hne, -⟩ := h.compound hroot _ hb
      cases hne

/-- No branch lacks premises. -/
theorem Conforms.premises_ne_nil {t : ProofTree} (h : t.Conforms) {ts : List ProofTree}
    (hb : .premises ts ∈ t.branches) : ts ≠ [] := by
  rintro rfl
  cases hroot : t.root.isAtomic with
  | true =>
      rcases h.atomic hroot with hnil | hinitial
      · rw [hnil] at hb
        cases hb
      · rw [hinitial] at hb
        cases List.mem_singleton.mp hb
  | false =>
      obtain ⟨ts, heq, hlength⟩ := h.compound hroot _ hb
      cases heq
      rcases hlength with hone | htwo
      · cases hone
      · cases htwo

/-! ## Closed trees -/

/-- A closed tree whose nodes conform splits into a derivation, among others, all
    of whose leaves are atomic with an atom on both sides. -/
theorem exists_derivation_of_isClosed (t : ProofTree) (h : ∀ u, t.HasNode u → u.Conforms)
    (hclosed : t.isClosed = true) :
    ∃ d ∈ t.split, ∀ l, d.HasNode l → l.IsLeaf →
      l.root.isAtomic = true ∧ l.root.isIdentity = true := by
  induction t using ProofTree.induction with
  | node root branches grown ih =>
      have hnode := h _ (.root _)
      rcases isClosed_node_iff.mp hclosed with ⟨hb, hidentity⟩ | ⟨ts, hb, hts⟩
      · -- the mark itself is the derivation
        obtain rfl : grown = true := hnode.grown.mpr (List.ne_nil_of_mem hb)
        refine ⟨.ofBranches root [.initial], mem_split_node.mpr (Or.inl ⟨hb, rfl⟩), ?_⟩
        intro l hl _
        cases hl with
        | root => exact ⟨hnode.isAtomic hb, hidentity⟩
        | child hb' hc _ =>
            rw [List.mem_singleton.mp hb'] at hc
            cases hc
      · -- choose a derivation for every premise
        obtain rfl : grown = true := hnode.grown.mpr (List.ne_nil_of_mem hb)
        have hpremise : ∀ c ∈ ts, ∃ d, d ∈ c.split ∧ ∀ l, d.HasNode l → l.IsLeaf →
            l.root.isAtomic = true ∧ l.root.isIdentity = true := by
          intro c hc
          exact ih _ hb c hc (fun u hu => h u (.child hb hc hu)) (hts c hc)
        obtain ⟨us, hus⟩ := exists_forall₂ hpremise
        refine ⟨.ofBranches root [.premises us], ?_, ?_⟩
        · exact mem_split_node.mpr (Or.inr ⟨ts, us, hb, hus.imp fun _ _ hu => hu.1, rfl⟩)
        · intro l hl hleaf
          cases hl with
          | root =>
              -- the root has premises, so it is no leaf
              have hnone : us = [] := hleaf (.premises us) (List.mem_singleton_self _)
              rw [hnone, List.forall₂_nil_right_iff] at hus
              exact absurd hus (hnode.premises_ne_nil hb)
          | child hb' hc hl =>
              rw [List.mem_singleton.mp hb'] at hc
              obtain ⟨c, -, -, hleaves⟩ := forall₂_exists_left hus hc
              exact hleaves l hl hleaf

end ProofTree

/-! ## Grown trees -/

namespace Sequent

variable {rules : RuleSet} {supply : Supply} {s : Sequent} {t : ProofTree}

/-- The root of a grown tree has a shape that decomposition produces. -/
theorem isShaped_of_grow (h : s.grow rules supply = .ok t) : t.IsShaped := by
  rcases Sequent.grow_eq_ok_iff.mp h with ⟨hd, rfl⟩ | ⟨tag, alts, branches, hd, hbs, rfl⟩
  · have hatomic := Sequent.isAtomic_iff.mpr (Decomposition.principal?_of_initial hd)
    refine ⟨?_, fun b hb _ => List.mem_singleton.mp hb, rfl⟩
    show isShape s [0] = true
    simp [isShape, hatomic]
  · -- a branch has as many children as its alternative has premises
    have hcount : ∀ b ∈ branches, b.children.length = 1 ∨ b.children.length = 2 := by
      intro b hb
      obtain ⟨alt, halt, ts, rfl, hts⟩ := forall₂_exists_left hbs hb
      obtain ⟨m, i, -, -, hyields⟩ := Decomposition.yields hd halt
      have hlength : ts.length = alt.premises.length := hts.length_eq.symm
      show ts.length = 1 ∨ ts.length = 2
      rw [hlength]
      exact hyields.length_premises
    -- a step decomposes a compound formula
    have hatomic : s.isAtomic = false := by
      rw [Bool.eq_false_iff]
      intro hatomic
      rcases Decomposition.of_cases hd with ⟨-, hinitial⟩ | ⟨m, i, alts', hm, -⟩
      · cases hinitial
      · rw [Sequent.isAtomic_iff.mp hatomic] at hm
        cases hm
    refine ⟨?_, ?_, ?_⟩
    · show isShape s (branches.map fun b => b.children.length) = true
      rw [isShape, hatomic]
      simpa using hcount
    · intro b hb hnil
      have := hcount b hb
      rw [hnil] at this
      exact absurd this (by decide)
    · cases branches with
      | nil =>
          rw [List.forall₂_nil_right_iff.mp hbs] at hd
          exact absurd rfl (Decomposition.alternatives_ne_nil hd)
      | cons b bs => rfl

theorem isGrown_of_grow (h : s.grow rules supply = .ok t) : t.isGrown = true := by
  rcases Sequent.grow_eq_ok_iff.mp h with ⟨-, rfl⟩ | ⟨_, _, _, -, -, rfl⟩ <;> rfl

/-- A grown tree has a branch. -/
theorem branches_ne_nil_of_grow (h : s.grow rules supply = .ok t) : t.branches ≠ [] :=
  (ProofTree.isShaped_iff_conforms.mp (isShaped_of_grow h)).grown.mp (isGrown_of_grow h)

/-- Every node of a grown tree is complete. -/
theorem isComplete_of_hasNode (h : s.grow rules supply = .ok t) {u : ProofTree}
    (hu : t.HasNode u) : u.IsComplete := by
  obtain ⟨supply', -, hgrow⟩ := reaches_of_hasNode h hu
  have hconforms := ProofTree.isShaped_iff_conforms.mp (isShaped_of_grow hgrow)
  exact hconforms.isComplete (isGrown_of_grow hgrow)

/-- A grown tree is at most as deep as its root has connectives. -/
theorem depth_le_connectives (h : s.grow rules supply = .ok t) : t.depth ≤ s.connectives := by
  refine grow_induction (motive := fun _ s t => t.depth ≤ s.connectives) ?_ ?_ h
  · intro supply s _
    refine ProofTree.depth_node_le ?_
    intro b hb c hc
    rw [List.mem_singleton.mp hb] at hc
    cases hc
  · intro supply s tag alts branches hd hbs
    refine ProofTree.depth_node_le ?_
    intro b hb c hc
    obtain ⟨alt, halt, ts, rfl, hts⟩ := forall₂_exists_left hbs hb
    obtain ⟨p, hp, hdepth⟩ := forall₂_exists_left hts hc
    exact Nat.lt_of_le_of_lt hdepth (Decomposition.connectives_lt hd halt hp)

end Sequent

/-- **Growth ends in a complete tree.**  Each premise of a decomposition has
    fewer connectives than what is decomposed; and a tree that has been grown
    keeps its root, is complete at every node, and is at most as deep as its
    root has connectives. -/
theorem ProofTree.isComplete_of_grow (rules : RuleSet) (supply : Supply) :
    (∀ s d, Decomposition.of rules supply s = .ok d →
      ∀ alt ∈ d.alternatives, ∀ p ∈ alt.premises, p.connectives < s.connectives) ∧
    ∀ t₀ t, ProofTree.grow rules supply t₀ = .ok t →
      t.root = t₀.root ∧ (∀ u, t.HasNode u → u.IsComplete) ∧ t.depth ≤ t.root.connectives := by
  refine ⟨fun s d hd alt halt p hp => Decomposition.connectives_lt hd halt hp, ?_⟩
  intro t₀ t hgrow
  rw [ProofTree.grow] at hgrow
  split at hgrow
  · cases hgrow
  · have hroot := Sequent.root_of_grow hgrow
    refine ⟨hroot, fun u hu => Sequent.isComplete_of_hasNode hgrow hu, ?_⟩
    rw [hroot]
    exact Sequent.depth_le_connectives hgrow

/-- The sequent `∀x (P<x> & ~Q<x>); P<a> v Q<a>`. -/
def Sequent.universalConjunction : Sequent :=
  ⟨[.quantified .universal "x"
      (.binary .conjunction (.atom ⟨"P", ["x"]⟩) (.negation (.atom ⟨"Q", ["x"]⟩)))],
    [.binary .disjunction (.atom ⟨"P", ["a"]⟩) (.atom ⟨"Q", ["a"]⟩)]⟩

/-- Its four connectives make a path of four rules. -/
theorem ProofTree.isComplete_universalConjunction :
    ∃ t, ProofTree.grow (RuleSet.uniform .multiplicative) ⟨["a", "b"], []⟩
        (ofSequent Sequent.universalConjunction) = .ok t ∧
      (∀ u, t.HasNode u → u.IsComplete) ∧ t.depth = 4 ∧ t.root.connectives = 4 := by
  have hdepth : (ProofTree.grow (RuleSet.uniform .multiplicative) ⟨["a", "b"], []⟩
      (ofSequent Sequent.universalConjunction)).toOption.any (·.depth == 4) = true := by decide_cbv
  cases hgrow : ProofTree.grow (RuleSet.uniform .multiplicative) ⟨["a", "b"], []⟩
      (ofSequent Sequent.universalConjunction) with
  | error e =>
      rw [hgrow] at hdepth
      cases hdepth
  | ok t =>
      rw [hgrow] at hdepth
      obtain ⟨hroot, hnodes, -⟩ := (ProofTree.isComplete_of_grow _ _).2 _ t hgrow
      exact ⟨t, rfl, hnodes, beq_iff_eq.mp hdepth, congrArg Sequent.connectives hroot⟩

end SequentCalculus
