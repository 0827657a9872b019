import SequentCalculus.Sequent.Basic

/-! # Proof trees — alternatives at the nodes, conjunctions along the branches

    A node carries a sequent and its branches.  Each branch is one way to
    derive the sequent: it marks an atomic sequent, where nothing is left to
    derive, or holds premises that have to be derived together.  A node that
    has not been decomposed yet has no branches and is marked as not grown.

    Trees are nested through lists, so functions on them are written as folds:
    `ProofTree.fold` replaces every node by a value computed from the values of
    its children, and `fold_node` is the only equation needed afterwards. -/

namespace SequentCalculus

/-- One way to derive a sequent, over children of any kind. -/
inductive Branch (α : Type)
  /-- The sequent is atomic. -/
  | initial
  /-- All the children have to be derived. -/
  | premises (children : List α)
  deriving DecidableEq, Repr

namespace Branch

variable {α β : Type}

/-- The children that a branch needs. -/
def children : Branch α → List α
  | initial => []
  | premises cs => cs

/-- Applies a function to every child. -/
def map (f : α → β) : Branch α → Branch β
  | initial => initial
  | premises cs => premises (cs.map f)

end Branch

/-- A sequent with the ways to derive it that have been found. -/
inductive ProofTree
  | node (root : Sequent) (branches : List (Branch ProofTree)) (grown : Bool)
  deriving Repr

instance : Inhabited ProofTree := ⟨.node default [] false⟩

section Fold

variable {α : Type} (f : Sequent → List (Branch α) → Bool → α)

mutual

/-- The value of a tree, computed from the leaves up. -/
def ProofTree.fold : ProofTree → α
  | .node root branches grown => f root (foldBranches branches) grown

/-- The branches with every child replaced by its value. -/
def foldBranches : List (Branch ProofTree) → List (Branch α)
  | [] => []
  | b :: bs => foldBranch b :: foldBranches bs

/-- The branch with every child replaced by its value. -/
def foldBranch : Branch ProofTree → Branch α
  | .initial => .initial
  | .premises ts => .premises (foldTrees ts)

/-- The values of several trees. -/
def foldTrees : List ProofTree → List α
  | [] => []
  | t :: ts => t.fold :: foldTrees ts

end

theorem foldTrees_eq_map (ts : List ProofTree) :
    foldTrees f ts = ts.map (ProofTree.fold f) := by
  induction ts with
  | nil => rfl
  | cons t ts ih => rw [foldTrees, ih]; rfl

theorem foldBranch_eq_map (b : Branch ProofTree) :
    foldBranch f b = b.map (ProofTree.fold f) := by
  cases b with
  | initial => rfl
  | premises ts => rw [foldBranch, foldTrees_eq_map]; rfl

theorem foldBranches_eq_map (bs : List (Branch ProofTree)) :
    foldBranches f bs = bs.map (Branch.map (ProofTree.fold f)) := by
  induction bs with
  | nil => rfl
  | cons b bs ih => rw [foldBranches, ih, foldBranch_eq_map]; rfl

/-- The value of a node comes from the values of its children. -/
theorem ProofTree.fold_node (root : Sequent) (branches : List (Branch ProofTree)) (grown : Bool) :
    (ProofTree.node root branches grown).fold f =
      f root (branches.map (Branch.map (ProofTree.fold f))) grown := by
  rw [ProofTree.fold, foldBranches_eq_map]

end Fold

namespace ProofTree

/-- The sequent at the root. -/
def root : ProofTree → Sequent
  | node root _ _ => root

/-- The ways to derive the root. -/
def branches : ProofTree → List (Branch ProofTree)
  | node _ branches _ => branches

/-- Whether the root has been decomposed. -/
def isGrown : ProofTree → Bool
  | node _ _ grown => grown

/-- The tree of a sequent that has not been decomposed. -/
def ofSequent (s : Sequent) : ProofTree := node s [] false

/-- The tree with the given branches; it counts as grown if there are any. -/
def ofBranches (s : Sequent) (branches : List (Branch ProofTree)) : ProofTree :=
  node s branches !branches.isEmpty

/-- The tag of the root. -/
def tag (t : ProofTree) : Tag := t.root.tag

/-- The child at a place, counted by branch and premise. -/
def child? (t : ProofTree) (branch premise : Nat) : Option ProofTree :=
  match t.branches[branch]? with
  | some b => b.children[premise]?
  | none => none

/-! ## Equality

    Two trees are equal when their nodes agree one by one. -/

mutual

/-- Decides whether two trees are equal. -/
def decEq : (t u : ProofTree) → Decidable (t = u)
  | node r bs g, node r' bs' g' =>
      match decEqBranches bs bs' with
      | isTrue hb =>
          if h : r = r' ∧ g = g' then isTrue (by rw [h.1, h.2, hb])
          else isFalse fun e => h (by cases e; exact ⟨rfl, rfl⟩)
      | isFalse hb => isFalse fun e => hb (by cases e; rfl)

/-- Decides whether two lists of branches are equal. -/
def decEqBranches : (bs cs : List (Branch ProofTree)) → Decidable (bs = cs)
  | [], [] => isTrue rfl
  | [], _ :: _ => isFalse fun e => nomatch e
  | _ :: _, [] => isFalse fun e => nomatch e
  | b :: bs, c :: cs =>
      match decEqBranch b c with
      | isTrue h =>
          match decEqBranches bs cs with
          | isTrue h' => isTrue (by rw [h, h'])
          | isFalse h' => isFalse fun e => h' (by cases e; rfl)
      | isFalse h => isFalse fun e => h (by cases e; rfl)

/-- Decides whether two branches are equal. -/
def decEqBranch : (b c : Branch ProofTree) → Decidable (b = c)
  | .initial, .initial => isTrue rfl
  | .initial, .premises _ => isFalse fun e => nomatch e
  | .premises _, .initial => isFalse fun e => nomatch e
  | .premises ts, .premises us =>
      match decEqTrees ts us with
      | isTrue h => isTrue (by rw [h])
      | isFalse h => isFalse fun e => h (by cases e; rfl)

/-- Decides whether two lists of trees are equal. -/
def decEqTrees : (ts us : List ProofTree) → Decidable (ts = us)
  | [], [] => isTrue rfl
  | [], _ :: _ => isFalse fun e => nomatch e
  | _ :: _, [] => isFalse fun e => nomatch e
  | t :: ts, u :: us =>
      match decEq t u with
      | isTrue h =>
          match decEqTrees ts us with
          | isTrue h' => isTrue (by rw [h, h'])
          | isFalse h' => isFalse fun e => h' (by cases e; rfl)
      | isFalse h => isFalse fun e => h (by cases e; rfl)

end

instance : DecidableEq ProofTree := decEq

end ProofTree

end SequentCalculus
