import Mathlib.Algebra.BigOperators.Group.List.Basic
import SequentCalculus.Proofs.Shape

/-! # The derivations of a tree

    A tree is asked how many derivations it holds, whether one of them is
    complete and how deep they are.  The answers are computed from the tree
    itself, by sums over branches and products over premises, by a search for a
    closed branch, and along the longest path.  They agree with what a look at
    the derivations one by one would give (`ProofTree.queries_split`).

    Counts stay at a bound once they reach it.  This is the same at every node as
    bounding the true count at the end: sums and products of bounded numbers,
    bounded again, are the bounded sums and products (`foldl_boundedAdd`,
    `foldl_boundedMul`). -/

namespace SequentCalculus

/-! ## Largest numbers and bounded counts -/

/-- The largest of some numbers is one of them, or zero if there are none. -/
theorem largest_eq_zero_or_mem (ns : List Nat) : largest ns = 0 ∨ largest ns ∈ ns := by
  induction ns with
  | nil => exact Or.inl rfl
  | cons n ns ih =>
      have hcons : largest (n :: ns) = max n (largest ns) := rfl
      rw [hcons]
      rcases Nat.le_total n (largest ns) with hle | hle
      · rw [Nat.max_eq_right hle]
        exact ih.imp_right (List.mem_cons_of_mem n)
      · rw [Nat.max_eq_left hle]
        exact Or.inr List.mem_cons_self

/-- Bounded addition of bounded numbers is addition, bounded at the end. -/
theorem boundedAdd_min (m n : Nat) :
    boundedAdd (min m countLimit) (min n countLimit) = min (m + n) countLimit := by
  unfold boundedAdd
  omega

theorem min_mul_min (m n limit : Nat) : min (min m limit * n) limit = min (m * n) limit := by
  rcases Nat.le_total m limit with hm | hm
  · rw [Nat.min_eq_left hm]
  · rw [Nat.min_eq_right hm]
    rcases Nat.eq_zero_or_pos n with rfl | hn
    · rfl
    · have hlimit : limit ≤ limit * n := Nat.le_mul_of_pos_right limit hn
      have hproduct : limit ≤ m * n := Nat.le_trans hm (Nat.le_mul_of_pos_right m hn)
      rw [Nat.min_eq_right hlimit, Nat.min_eq_right hproduct]

/-- Bounded multiplication of bounded numbers is multiplication, bounded at the
    end. -/
theorem boundedMul_min (m n : Nat) :
    boundedMul (min m countLimit) (min n countLimit) = min (m * n) countLimit := by
  rw [boundedMul, min_mul_min, Nat.mul_comm, min_mul_min, Nat.mul_comm]

/-- Bounding each number changes nothing in a bounded sum. -/
theorem foldl_boundedAdd (ns : List Nat) (m : Nat) :
    (ns.map (min · countLimit)).foldl boundedAdd (min m countLimit) =
      min (m + ns.sum) countLimit := by
  induction ns generalizing m with
  | nil => simp
  | cons n ns ih =>
      rw [List.map_cons, List.foldl_cons, boundedAdd_min, ih, List.sum_cons, Nat.add_assoc]

/-- Bounding each number changes nothing in a bounded product. -/
theorem foldl_boundedMul (ns : List Nat) (m : Nat) :
    (ns.map (min · countLimit)).foldl boundedMul (min m countLimit) =
      min (m * ns.prod) countLimit := by
  induction ns generalizing m with
  | nil => simp
  | cons n ns ih =>
      rw [List.map_cons, List.foldl_cons, boundedMul_min, ih, List.prod_cons, Nat.mul_assoc]

/-! ## How many -/

/-- The number of derivations that begin with a branch. -/
def Branch.alternatives : Branch ProofTree → Nat
  | initial => 1
  | premises ts => (ts.map ProofTree.alternatives).foldl boundedMul 1

namespace ProofTree

/-- The alternatives of a grown node are those of its branches, added up. -/
theorem alternatives_node (root : Sequent) (branches : List (Branch ProofTree)) :
    (node root branches true).alternatives =
      (branches.map Branch.alternatives).foldl boundedAdd 0 := by
  rw [alternatives, fold_node, if_pos rfl, List.foldl_map, List.foldl_map]
  congr 1
  funext n b
  cases b <;> rfl

/-- What has not been grown counts as one derivation. -/
theorem alternatives_ungrown (root : Sequent) (branches : List (Branch ProofTree)) :
    (node root branches false).alternatives = 1 := by
  rw [alternatives, fold_node]
  rfl

end ProofTree

/-- The choices of one derivation for each tree multiply. -/
theorem length_splitTrees (ts : List ProofTree) :
    (splitTrees ts).length = (ts.map fun t => t.split.length).prod := by
  induction ts with
  | nil => rfl
  | cons t ts ih => simp [splitTrees, List.length_flatMap, ih]

/-- The derivations of the branches add up. -/
theorem length_splitBranches (root : Sequent) (branches : List (Branch ProofTree)) :
    (splitBranches root branches).length =
      (branches.map fun b => (splitBranch root b).length).sum := by
  induction branches with
  | nil => rfl
  | cons b bs ih => rw [splitBranches, List.length_append, ih, List.map_cons, List.sum_cons]

/-- The number of alternatives is that of derivations, bounded. -/
theorem ProofTree.alternatives_eq_min (t : ProofTree) :
    t.alternatives = min t.split.length countLimit := by
  induction t using ProofTree.induction with
  | node root branches grown ih =>
      cases grown with
      | false =>
          rw [alternatives_ungrown, split]
          rfl
      | true =>
          -- within a branch the counts multiply, and bounds do not disturb products
          have hbranch : ∀ b ∈ branches,
              b.alternatives = min (splitBranch root b).length countLimit := by
            intro b hb
            cases b with
            | initial => rfl
            | premises ts =>
                have hts : ts.map alternatives =
                    (ts.map fun t => t.split.length).map (min · countLimit) := by
                  rw [List.map_map]
                  exact List.map_congr_left (ih _ hb)
                rw [splitBranch, List.length_map, length_splitTrees, Branch.alternatives, hts]
                have hproduct := foldl_boundedMul (ts.map fun t => t.split.length) 1
                rw [Nat.one_mul] at hproduct
                exact hproduct
          have hbranches : branches.map Branch.alternatives =
              (branches.map fun b => (splitBranch root b).length).map (min · countLimit) := by
            rw [List.map_map]
            exact List.map_congr_left hbranch
          -- over the branches they add up
          have hsum := foldl_boundedAdd (branches.map fun b => (splitBranch root b).length) 0
          rw [Nat.zero_add] at hsum
          rw [alternatives_node, split, length_splitBranches, hbranches]
          exact hsum

/-! ## Closed or not -/

namespace ProofTree

/-- A node with one branch is closed if the premises are. -/
theorem isClosed_premises_iff {root : Sequent} {ts : List ProofTree} :
    (ofBranches root [.premises ts]).isClosed = true ↔ ∀ t ∈ ts, t.isClosed = true := by
  rw [ofBranches, isClosed_node_iff]
  simp

/-- A tree is closed if one of its derivations is. -/
theorem isClosed_iff_exists_split (t : ProofTree) :
    t.isClosed = true ↔ ∃ d ∈ t.split, d.isClosed = true := by
  induction t using ProofTree.induction with
  | node root branches grown ih =>
      cases grown with
      | false =>
          rw [split]
          simp
      | true =>
          rw [isClosed_node_iff]
          constructor
          · rintro (⟨hb, hidentity⟩ | ⟨ts, hb, hts⟩)
            · exact ⟨.ofBranches root [.initial], mem_split_node.mpr (Or.inl ⟨hb, rfl⟩),
                (isClosed_initial root).trans hidentity⟩
            · -- choose a closed derivation for every premise
              have hclosed : ∀ t ∈ ts, ∃ d, d ∈ t.split ∧ d.isClosed = true := fun t ht =>
                (ih _ hb t ht).mp (hts t ht)
              obtain ⟨us, hus⟩ := exists_forall₂ hclosed
              refine ⟨.ofBranches root [.premises us], ?_, isClosed_premises_iff.mpr ?_⟩
              · exact mem_split_node.mpr (Or.inr ⟨ts, us, hb, hus.imp fun _ _ hu => hu.1, rfl⟩)
              · intro u hu
                obtain ⟨t, -, -, hclosed⟩ := forall₂_exists_left hus hu
                exact hclosed
          · rintro ⟨d, hd, hclosed⟩
            rcases mem_split_node.mp hd with ⟨hb, rfl⟩ | ⟨ts, us, hb, hus, rfl⟩
            · exact Or.inl ⟨hb, (isClosed_initial root).symm.trans hclosed⟩
            · refine Or.inr ⟨ts, hb, ?_⟩
              intro t ht
              obtain ⟨u, hu, hsplit⟩ := forall₂_exists_right hus ht
              exact (ih _ hb t ht).mpr ⟨u, hsplit, isClosed_premises_iff.mp hclosed u hu⟩

/-! ## How deep -/

/-- No derivation is deeper than its tree. -/
theorem depth_le_of_mem_split (t : ProofTree) : ∀ d ∈ t.split, d.depth ≤ t.depth := by
  induction t using ProofTree.induction with
  | node root branches grown ih =>
      intro d hd
      cases grown with
      | false => rw [List.mem_singleton.mp hd]
      | true =>
          rcases mem_split_node.mp hd with ⟨-, rfl⟩ | ⟨ts, us, hb, hus, rfl⟩
          · exact Nat.zero_le _
          · refine depth_node_le ?_
            intro b hb' u hu
            rw [List.mem_singleton.mp hb'] at hu
            obtain ⟨t, ht, hsplit⟩ := forall₂_exists_left hus hu
            exact Nat.lt_of_le_of_lt (ih _ hb t ht u hsplit) (depth_lt_node hb ht)

/-- Every node counts as grown exactly if it has branches. -/
def IsMarked (t : ProofTree) : Prop :=
  ∀ u, t.HasNode u → (u.isGrown = true ↔ u.branches ≠ [])

theorem IsMarked.child {t c : ProofTree} (h : t.IsMarked) {b : Branch ProofTree}
    (hb : b ∈ t.branches) (hc : c ∈ b.children) : c.IsMarked :=
  fun u hu => h u (.child hb hc hu)

/-- A tree is one deeper than one of the trees below its root, or there are none. -/
theorem depth_eq_zero_or_succ (t : ProofTree) :
    t.depth = 0 ∨ ∃ b ∈ t.branches, ∃ c ∈ b.children, t.depth = 1 + c.depth := by
  obtain ⟨root, branches, grown⟩ := t
  rw [depth_node]
  rcases largest_eq_zero_or_mem ((branches.flatMap Branch.children).map fun c => 1 + c.depth) with
    hzero | hmem
  · exact Or.inl hzero
  · obtain ⟨c, hc, hdepth⟩ := List.mem_map.mp hmem
    obtain ⟨b, hb, hc⟩ := List.mem_flatMap.mp hc
    exact Or.inr ⟨b, hb, c, hc, hdepth.symm⟩

/-- Some derivation is as deep as its tree, since every premise of the deepest
    branch has a derivation. -/
theorem exists_depth_eq (t : ProofTree) (h : t.IsMarked) : ∃ d ∈ t.split, d.depth = t.depth := by
  induction t using ProofTree.induction with
  | node root branches grown ih =>
      cases grown with
      | false => exact ⟨_, List.mem_singleton_self _, rfl⟩
      | true =>
          -- a branch with its deepest derivations goes beyond all its premises
          have hbranch : ∀ b ∈ branches, ∃ d ∈ (node root branches true).split,
              ∀ c ∈ b.children, c.depth < d.depth := by
            intro b hb
            cases b with
            | initial =>
                refine ⟨_, mem_split_node.mpr (Or.inl ⟨hb, rfl⟩), ?_⟩
                intro c hc
                cases hc
            | premises ts =>
                have hdeep : ∀ t ∈ ts, ∃ d, d ∈ t.split ∧ d.depth = t.depth := fun t ht =>
                  ih _ hb t ht (h.child hb ht)
                obtain ⟨us, hus⟩ := exists_forall₂ hdeep
                refine ⟨_, mem_split_node.mpr
                  (Or.inr ⟨ts, us, hb, hus.imp fun _ _ hu => hu.1, rfl⟩), ?_⟩
                intro c hc
                obtain ⟨u, hu, -, hdepth⟩ := forall₂_exists_right hus hc
                rw [← hdepth]
                exact depth_lt_node (List.mem_singleton_self _) hu
          have hdepth : ∃ d ∈ (node root branches true).split,
              (node root branches true).depth ≤ d.depth := by
            rcases depth_eq_zero_or_succ (node root branches true) with hzero | ⟨b, hb, c, hc, heq⟩
            · -- any derivation will do, and being grown the node has a branch
              obtain ⟨b, hb⟩ := List.exists_mem_of_ne_nil _ ((h _ (.root _)).mp rfl)
              obtain ⟨d, hd, -⟩ := hbranch b hb
              exact ⟨d, hd, by omega⟩
            · obtain ⟨d, hd, hdeep⟩ := hbranch b hb
              have hlt := hdeep c hc
              exact ⟨d, hd, by omega⟩
          obtain ⟨d, hd, hle⟩ := hdepth
          exact ⟨d, hd, Nat.le_antisymm (depth_le_of_mem_split _ d hd) hle⟩

/-- A tree splits into at least one derivation. -/
theorem split_ne_nil {t : ProofTree} (h : t.IsMarked) : t.split ≠ [] := by
  obtain ⟨d, hd, -⟩ := t.exists_depth_eq h
  exact List.ne_nil_of_mem hd

/-- **Questions about a tree are questions about its derivations.**  The number of
    derivations is the length of their list, bounded by the largest 64-bit number,
    and the tree is closed exactly if one of them is.  If besides every node counts
    as grown exactly when it has branches, there is a derivation, and the depth of
    the tree is the greatest of theirs. -/
theorem queries_split (t : ProofTree) :
    t.alternatives = min t.split.length (2 ^ 64 - 1) ∧
    (t.isClosed = true ↔ ∃ d ∈ t.split, d.isClosed = true) ∧
    ((∀ u, t.HasNode u → (u.isGrown = true ↔ u.branches ≠ [])) →
      t.split ≠ [] ∧ (∀ d ∈ t.split, d.depth ≤ t.depth) ∧ ∃ d ∈ t.split, d.depth = t.depth) := by
  refine ⟨t.alternatives_eq_min, t.isClosed_iff_exists_split, ?_⟩
  intro h
  exact ⟨split_ne_nil h, t.depth_le_of_mem_split, t.exists_depth_eq h⟩

/-- `A & B; A` with both alternatives of the additive rule, of which only the
    first has been grown further. -/
def partlyGrown : ProofTree :=
  .node ⟨[.binary .conjunction (.atom ⟨"A", []⟩) (.atom ⟨"B", []⟩)], [.atom ⟨"A", []⟩]⟩
    [.premises [.node ⟨[.atom ⟨"A", []⟩], [.atom ⟨"A", []⟩]⟩ [.initial] true],
      .premises [.ofSequent ⟨[.atom ⟨"B", []⟩], [.atom ⟨"A", []⟩]⟩]]
    true

theorem eq_of_hasNode_partlyGrown {u : ProofTree} (h : partlyGrown.HasNode u) :
    u = partlyGrown ∨
      u = .node ⟨[.atom ⟨"A", []⟩], [.atom ⟨"A", []⟩]⟩ [.initial] true ∨
      u = .ofSequent ⟨[.atom ⟨"B", []⟩], [.atom ⟨"A", []⟩]⟩ := by
  cases h with
  | root => exact Or.inl rfl
  | child hb hc hu =>
      rcases List.mem_pair.mp hb with rfl | rfl
      · rw [List.mem_singleton.mp hc] at hu
        cases hu with
        | root => exact Or.inr (Or.inl rfl)
        | child hb hc _ =>
            rw [List.mem_singleton.mp hb] at hc
            cases hc
      · rw [List.mem_singleton.mp hc] at hu
        cases hu with
        | root => exact Or.inr (Or.inr rfl)
        | child hb _ _ => cases hb

theorem queries_split_partlyGrown :
    partlyGrown.split.length = 2 ∧ partlyGrown.alternatives = 2 ∧
      (∃ d ∈ partlyGrown.split, d.isClosed = true) ∧
      (∀ u, partlyGrown.HasNode u → (u.isGrown = true ↔ u.branches ≠ [])) ∧
      ∃ d ∈ partlyGrown.split, d.depth = 1 := by
  have hmarked : partlyGrown.IsMarked := by
    intro u hu
    rcases eq_of_hasNode_partlyGrown hu with rfl | rfl | rfl
    · simp [partlyGrown, isGrown, branches]
    · simp [isGrown, branches]
    · simp [ofSequent, isGrown, branches]
  obtain ⟨halternatives, hclosed, hdepth⟩ := queries_split partlyGrown
  have hlength : partlyGrown.split.length = 2 := rfl
  rw [hlength] at halternatives
  exact ⟨hlength, halternatives, hclosed.mp rfl, hmarked, (hdepth hmarked).2.2⟩

end ProofTree

end SequentCalculus
