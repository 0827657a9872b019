import SequentCalculus.Proofs.Derivations

/-! # Derivations as choices

    A derivation is made by choosing a branch at the root, then one at each
    premise of that branch, and so on until a mark or a node that has not been
    grown is reached.  `Choice t` is the type of all such choices for a tree: only
    branches that are there can be chosen, and nothing is chosen at nodes that are
    left out.

    Read from the root down and from the first premise to the last, a choice is a
    list of branch numbers.  `ProofTree.split` goes through the choices in the
    lexicographic order of these lists and takes each of them once
    (`ProofTree.split_enumerates_choices`).  What it lists has nothing left to choose.

    No list of branch numbers is an initial part of another one of the same tree,
    so two of them differ at some place, whatever follows (`Differs`).  That is why
    the order of the choices for several premises is again lexicographic. -/

namespace SequentCalculus

/-! ## Choices -/

mutual

/-- A choice of one branch, by its number, at every node of a tree that remains. -/
inductive Choice : ProofTree → Type
  /-- What has not been grown is kept as it is. -/
  | kept (root : Sequent) (branches : List (Branch ProofTree)) :
      Choice (.node root branches false)
  /-- The branch is the mark of an atomic sequent. -/
  | initial (root : Sequent) (branches : List (Branch ProofTree)) (i : Nat)
      (h : branches[i]? = some .initial) : Choice (.node root branches true)
  /-- The branch has premises, and the choice goes on in each of them. -/
  | premises (root : Sequent) (branches : List (Branch ProofTree)) (i : Nat)
      (ts : List ProofTree) (h : branches[i]? = some (.premises ts)) (cs : Choices ts) :
      Choice (.node root branches true)

/-- A choice for each of several trees. -/
inductive Choices : List ProofTree → Type
  | nil : Choices []
  | cons (t : ProofTree) (ts : List ProofTree) (c : Choice t) (cs : Choices ts) :
      Choices (t :: ts)

end

mutual

/-- What remains of a tree: every node that has been grown keeps the branch that
    is chosen. -/
def Choice.derivation : {t : ProofTree} → Choice t → ProofTree
  | _, .kept root branches => .node root branches false
  | _, .initial root _ _ _ => .node root [.initial] true
  | _, .premises root _ _ _ _ cs => .node root [.premises cs.derivations] true

/-- What remains of several trees. -/
def Choices.derivations : {ts : List ProofTree} → Choices ts → List ProofTree
  | _, .nil => []
  | _, .cons _ _ c cs => c.derivation :: cs.derivations

end

mutual

/-- The numbers of the chosen branches, the root's first and then those of the
    premises in turn. -/
def Choice.numbers : {t : ProofTree} → Choice t → List Nat
  | _, .kept _ _ => []
  | _, .initial _ _ i _ => [i]
  | _, .premises _ _ i _ _ cs => i :: cs.numbers

/-- The numbers of the branches chosen in several trees. -/
def Choices.numbers : {ts : List ProofTree} → Choices ts → List Nat
  | _, .nil => []
  | _, .cons _ _ c cs => c.numbers ++ cs.numbers

end

/-- Where a node has been grown, the first number is that of its branch. -/
theorem Choice.exists_head {root : Sequent} {branches : List (Branch ProofTree)}
    (c : Choice (.node root branches true)) :
    ∃ i b, branches[i]? = some b ∧ c.numbers.head? = some i := by
  cases c with
  | initial _ _ i h => exact ⟨i, _, h, rfl⟩
  | premises _ _ i ts h cs => exact ⟨i, _, h, rfl⟩

/-! ## The order of choices -/

/-- The lists have different numbers at some place, the smaller one in the first
    list, and agree before it. -/
inductive Differs : List Nat → List Nat → Prop
  | head {a b : Nat} (h : a < b) (v w : List Nat) : Differs (a :: v) (b :: w)
  | tail (a : Nat) {v w : List Nat} (h : Differs v w) : Differs (a :: v) (a :: w)

namespace Differs

/-- The numbers at the first difference decide the order. -/
theorem lex {v w : List Nat} (h : Differs v w) : List.Lex (· < ·) v w := by
  induction h with
  | head h v w => exact .rel h
  | tail a _ ih => exact .cons ih

theorem append {v w : List Nat} (h : Differs v w) (v' w' : List Nat) :
    Differs (v ++ v') (w ++ w') := by
  induction h with
  | head h v w => exact .head h _ _
  | tail a _ ih => exact .tail a ih

theorem append_left (u : List Nat) {v w : List Nat} (h : Differs v w) :
    Differs (u ++ v) (u ++ w) := by
  induction u with
  | nil => exact h
  | cons a u ih => exact .tail a ih

/-- Lists with different heads differ there. -/
theorem of_head? {v w : List Nat} {i j : Nat} (hv : v.head? = some i) (hw : w.head? = some j)
    (hij : i < j) : Differs v w := by
  obtain ⟨v, rfl⟩ := List.head?_eq_some_iff.mp hv
  obtain ⟨w, rfl⟩ := List.head?_eq_some_iff.mp hw
  exact .head hij v w

end Differs

/-! ## All choices in order -/

/-- The list has every choice for a tree, in ascending order of the branch
    numbers. -/
structure Choice.Lists {t : ProofTree} (cs : List (Choice t)) : Prop where
  all : ∀ c, c ∈ cs
  sorted : cs.Pairwise fun c d => Differs c.numbers d.numbers

/-- The list has every choice for several trees, in ascending order. -/
structure Choices.Lists {ts : List ProofTree} (css : List (Choices ts)) : Prop where
  all : ∀ cs, cs ∈ css
  sorted : css.Pairwise fun cs ds => Differs cs.numbers ds.numbers

/-- The choices for the premises vary faster the later the premise stands. -/
theorem exists_lists_splitTrees (ts : List ProofTree)
    (h : ∀ t ∈ ts, ∃ cs : List (Choice t), Choice.Lists cs ∧ t.split = cs.map Choice.derivation) :
    ∃ css : List (Choices ts), Choices.Lists css ∧
      splitTrees ts = css.map Choices.derivations := by
  induction ts with
  | nil =>
      refine ⟨[.nil], ⟨?_, List.pairwise_singleton _ _⟩, rfl⟩
      intro cs
      cases cs
      exact List.mem_singleton_self _
  | cons t ts ih =>
      obtain ⟨ht, hts⟩ := List.forall_mem_cons.mp h
      obtain ⟨cs, hcs, hsplit⟩ := ht
      obtain ⟨css, hcss, hsplits⟩ := ih hts
      refine ⟨cs.flatMap fun c => css.map (.cons t ts c), ⟨?_, ?_⟩, ?_⟩
      · intro ds
        cases ds with
        | cons _ _ d ds =>
            exact List.mem_flatMap.mpr ⟨d, hcs.all d, List.mem_map_of_mem (hcss.all ds)⟩
      · refine List.pairwise_flatMap.mpr ⟨?_, ?_⟩
        · -- the same choice in the first tree: the rest decides
          intro c _
          rw [List.pairwise_map]
          exact hcss.sorted.imp fun hlt => hlt.append_left c.numbers
        · -- different choices in the first tree: the rest does not matter
          refine hcs.sorted.imp ?_
          intro c d hcd x hx y hy
          obtain ⟨xs, -, rfl⟩ := List.mem_map.mp hx
          obtain ⟨ys, -, rfl⟩ := List.mem_map.mp hy
          exact hcd.append xs.numbers ys.numbers
      · rw [splitTrees, hsplit, hsplits, List.flatMap_map, List.map_flatMap]
        simp only [List.map_map]
        rfl

/-- The choices that take one branch of a node are listed by the derivations that
    start with it. -/
theorem exists_lists_splitBranch {root : Sequent} {branches : List (Branch ProofTree)} {i : Nat}
    {b : Branch ProofTree} (hb : branches[i]? = some b)
    (h : ∀ t ∈ b.children, ∃ cs : List (Choice t),
      Choice.Lists cs ∧ t.split = cs.map Choice.derivation) :
    ∃ cs : List (Choice (.node root branches true)),
      (∀ c, c ∈ cs ↔ c.numbers.head? = some i) ∧
      cs.Pairwise (fun c d => Differs c.numbers d.numbers) ∧
      splitBranch root b = cs.map Choice.derivation := by
  cases b with
  | initial =>
      refine ⟨[.initial root branches i hb], ?_, List.pairwise_singleton _ _, rfl⟩
      intro c
      rw [List.mem_singleton]
      constructor
      · rintro rfl
        rfl
      · intro hi
        cases c with
        | initial _ _ j hj =>
            cases hi
            rfl
        | premises _ _ j ts hj ds =>
            cases hi
            rw [hb] at hj
            cases hj
  | premises ts =>
      obtain ⟨css, hcss, hsplits⟩ := exists_lists_splitTrees ts h
      -- a choice that starts with this branch is a choice for each of its premises
      refine ⟨css.map (.premises root branches i ts hb), ?_, ?_, ?_⟩
      · intro c
        rw [List.mem_map]
        constructor
        · rintro ⟨cs, -, rfl⟩
          rfl
        · intro hi
          cases c with
          | initial _ _ j hj =>
              cases hi
              rw [hb] at hj
              cases hj
          | premises _ _ j us hj ds =>
              cases hi
              -- one number belongs to one branch
              have hus : ts = us := by
                rw [hb] at hj
                cases hj
                rfl
              subst hus
              exact ⟨ds, hcss.all ds, rfl⟩
      · rw [List.pairwise_map]
        exact hcss.sorted.imp fun hlt => .tail i hlt
      · rw [splitBranch, hsplits, List.map_map, List.map_map]
        rfl

/-- The derivations that start with one of the branches, with the branches counted. -/
theorem splitBranches_eq_flatMap (root : Sequent) (branches : List (Branch ProofTree)) :
    splitBranches root branches =
      (List.range branches.length).flatMap fun i =>
        (branches[i]?).elim [] (splitBranch root) := by
  induction branches with
  | nil => rfl
  | cons b bs ih =>
      rw [splitBranches, ih, List.length_cons, List.range_succ_eq_map, List.flatMap_cons,
        List.flatMap_map]
      rfl

/-- Splitting goes through all choices in order. -/
theorem ProofTree.exists_lists_split (t : ProofTree) :
    ∃ cs : List (Choice t), Choice.Lists cs ∧ t.split = cs.map Choice.derivation := by
  induction t using ProofTree.induction with
  | node root branches grown ih =>
      cases grown with
      | false =>
          refine ⟨[.kept root branches], ⟨?_, List.pairwise_singleton _ _⟩, rfl⟩
          intro c
          cases c
          exact List.mem_singleton_self _
      | true =>
          -- the choices that take branch `i`, for each `i`
          have hbranch : ∀ i, ∃ cs : List (Choice (.node root branches true)),
              (∀ c, c ∈ cs ↔ c.numbers.head? = some i) ∧
              cs.Pairwise (fun c d => Differs c.numbers d.numbers) ∧
              (branches[i]?).elim [] (splitBranch root) = cs.map Choice.derivation := by
            intro i
            cases hb : branches[i]? with
            | some b => exact exists_lists_splitBranch hb (ih b (List.mem_of_getElem? hb))
            | none =>
                refine ⟨[], ?_, List.Pairwise.nil, rfl⟩
                intro c
                obtain ⟨j, b, hj, hhead⟩ := c.exists_head
                constructor
                · intro hc
                  cases hc
                · intro hi
                  rw [hhead] at hi
                  cases hi
                  rw [hb] at hj
                  cases hj
          choose taking hmem hsorted hsplit using hbranch
          refine ⟨(List.range branches.length).flatMap taking, ⟨?_, ?_⟩, ?_⟩
          · intro c
            obtain ⟨i, b, hb, hhead⟩ := c.exists_head
            have hi : i < branches.length := (List.getElem?_eq_some_iff.mp hb).1
            exact List.mem_flatMap.mpr ⟨i, List.mem_range.mpr hi, (hmem i c).mpr hhead⟩
          · refine List.pairwise_flatMap.mpr ⟨fun i _ => hsorted i, ?_⟩
            refine List.pairwise_lt_range.imp ?_
            intro i j hij c hc d hd
            exact .of_head? ((hmem i c).mp hc) ((hmem j d).mp hd) hij
          · rw [split, splitBranches_eq_flatMap, List.map_flatMap]
            simp only [hsplit]

/-! ## Derivations have nothing left to choose -/

namespace ProofTree

/-- What the marks of a node and of the nodes below it say. -/
theorem isMarked_node_iff {root : Sequent} {branches : List (Branch ProofTree)} {grown : Bool} :
    (node root branches grown).IsMarked ↔
      (grown = true ↔ branches ≠ []) ∧ ∀ b ∈ branches, ∀ c ∈ b.children, c.IsMarked := by
  constructor
  · intro h
    exact ⟨h _ (.root _), fun b hb c hc => h.child hb hc⟩
  · rintro ⟨hroot, hchildren⟩ u hu
    cases hu with
    | root => exact hroot
    | child hb hc hu => exact hchildren _ hb _ hc u hu

/-- A tree has no alternatives if its root has one branch at most and the trees below
    have none. -/
theorem isAndOnly_node_iff {root : Sequent} {branches : List (Branch ProofTree)} {grown : Bool} :
    (node root branches grown).isAndOnly = true ↔
      branches.length ≤ 1 ∧ ∀ b ∈ branches, ∀ c ∈ b.children, c.isAndOnly = true := by
  have hnode : (node root branches grown).isAndOnly =
      (decide (branches.length ≤ 1) &&
        (branches.flatMap Branch.children).all isAndOnly) := by
    rw [isAndOnly, fold_node, List.length_map, List.flatMap_map]
    simp only [Branch.children_map]
    rw [← List.map_flatMap, List.all_map]
    rfl
  rw [hnode, Bool.and_eq_true, decide_eq_true_eq, List.all_eq_true]
  simp only [List.mem_flatMap, forall_exists_index, and_imp]
  exact and_congr_right fun _ =>
    ⟨fun h b hb c hc => h c b hb hc, fun h c b hb hc => h b hb c hc⟩

/-- Where each tree is its own derivation there is one choice. -/
theorem splitTrees_eq_singleton {ts : List ProofTree} (h : ∀ t ∈ ts, t.split = [t]) :
    splitTrees ts = [ts] := by
  induction ts with
  | nil => rfl
  | cons t ts ih =>
      obtain ⟨ht, hts⟩ := List.forall_mem_cons.mp h
      rw [splitTrees, ht, ih hts]
      rfl

/-- A derivation has itself as its only derivation. -/
theorem split_of_mem_split (t : ProofTree) : ∀ d ∈ t.split, d.split = [d] := by
  induction t using ProofTree.induction with
  | node root branches grown ih =>
      intro d hd
      cases grown with
      | false =>
          rw [List.mem_singleton.mp hd]
          rfl
      | true =>
          rcases mem_split_node.mp hd with ⟨-, rfl⟩ | ⟨ts, us, hb, hus, rfl⟩
          · rfl
          · have hsplit : splitTrees us = [us] := by
              refine splitTrees_eq_singleton ?_
              intro u hu
              obtain ⟨t, ht, hmem⟩ := forall₂_exists_left hus hu
              exact ih _ hb t ht u hmem
            show splitBranches root [.premises us] = _
            rw [splitBranches, splitBranch, hsplit]
            rfl

/-- A derivation has the root of its tree. -/
theorem root_of_mem_split {t d : ProofTree} (hd : d ∈ t.split) : d.root = t.root := by
  obtain ⟨root, branches, grown⟩ := t
  cases grown with
  | false => rw [List.mem_singleton.mp hd]
  | true =>
      rcases mem_split_node.mp hd with ⟨-, rfl⟩ | ⟨ts, us, -, -, rfl⟩
      · rfl
      · rfl

/-- A derivation has one branch at most at every node. -/
theorem isAndOnly_of_mem_split (t : ProofTree) (h : t.IsMarked) :
    ∀ d ∈ t.split, d.isAndOnly = true := by
  induction t using ProofTree.induction with
  | node root branches grown ih =>
      intro d hd
      cases grown with
      | false =>
          -- the mark says that there are no branches to choose from
          have hnil : branches = [] := by
            by_contra hne
            cases (isMarked_node_iff.mp h).1.mpr hne
          rw [List.mem_singleton.mp hd, hnil]
          rfl
      | true =>
          rcases mem_split_node.mp hd with ⟨-, rfl⟩ | ⟨ts, us, hb, hus, rfl⟩
          · rfl
          · refine isAndOnly_node_iff.mpr ⟨Nat.le_refl 1, ?_⟩
            intro b hb' u hu
            rw [List.mem_singleton.mp hb'] at hu
            obtain ⟨t, ht, hmem⟩ := forall₂_exists_left hus hu
            exact ih _ hb t ht (h.child hb ht) u hmem

/-- **Splitting takes every choice once, in order.**  Let every node of a tree count
    as grown exactly when it has branches.  Then its choices can be listed, all of
    them, in strictly ascending lexicographic order of their branch numbers, so that
    splitting lists the derivations that they leave.  Each of these has the root of
    the tree and no node with two branches, and splits into itself alone. -/
theorem split_enumerates_choices {t : ProofTree}
    (h : ∀ u, t.HasNode u → (u.isGrown = true ↔ u.branches ≠ [])) :
    (∃ cs : List (Choice t), (∀ c, c ∈ cs) ∧
      cs.Pairwise (fun c d => List.Lex (· < ·) c.numbers d.numbers) ∧
      t.split = cs.map Choice.derivation) ∧
    ∀ d ∈ t.split, d.isAndOnly = true ∧ d.root = t.root ∧ d.split = [d] := by
  obtain ⟨cs, hlists, hsplit⟩ := t.exists_lists_split
  refine ⟨⟨cs, hlists.all, hlists.sorted.imp fun hlt => hlt.lex, hsplit⟩, ?_⟩
  intro d hd
  exact ⟨t.isAndOnly_of_mem_split h d hd, root_of_mem_split hd, t.split_of_mem_split d hd⟩

/-- `; (A v A) & (B v C)` with two alternatives for each conjunct.  Those of the first
    one are the same, and the last one of the second has not been grown. -/
def siblings : ProofTree :=
  let leaf (name : String) : ProofTree := .node ⟨[], [.atom ⟨name, []⟩]⟩ [.initial] true
  let left : Formula := .binary .disjunction (.atom ⟨"A", []⟩) (.atom ⟨"A", []⟩)
  let right : Formula := .binary .disjunction (.atom ⟨"B", []⟩) (.atom ⟨"C", []⟩)
  .node ⟨[], [.binary .conjunction left right]⟩
    [.premises
      [.node ⟨[], [left]⟩ [.premises [leaf "A"], .premises [leaf "A"]] true,
        .node ⟨[], [right]⟩
          [.premises [leaf "B"], .premises [.ofSequent ⟨[], [.atom ⟨"C", []⟩]⟩]] true]]
    true

theorem split_enumerates_choices_siblings :
    (∀ u, siblings.HasNode u → (u.isGrown = true ↔ u.branches ≠ [])) ∧
      siblings.split.length = 4 ∧ siblings.split[0]? = siblings.split[2]? ∧
      (∃ cs : List (Choice siblings), (∀ c, c ∈ cs) ∧ cs.length = 4 ∧
        cs.Pairwise (fun c d => List.Lex (· < ·) c.numbers d.numbers) ∧
        siblings.split = cs.map Choice.derivation) ∧
      ∀ d ∈ siblings.split, d.isAndOnly = true ∧ d.root = siblings.root ∧ d.split = [d] := by
  have hmarked : siblings.IsMarked := by
    simp [siblings, isMarked_node_iff, Branch.children, ofSequent]
  obtain ⟨⟨cs, hall, hsorted, hsplit⟩, hderivations⟩ := split_enumerates_choices hmarked
  have hlength : siblings.split.length = 4 := rfl
  refine ⟨hmarked, hlength, rfl, ⟨cs, hall, ?_, hsorted, hsplit⟩, hderivations⟩
  rw [← hlength, hsplit, List.length_map]

end ProofTree

end SequentCalculus
