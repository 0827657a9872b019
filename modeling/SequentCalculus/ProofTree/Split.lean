import SequentCalculus.ProofTree.Basic

/-! # Splitting a proof tree into its derivations

    A derivation is a tree in which one branch has been chosen at every node
    that remains.  `ProofTree.split` lists the derivations of a tree, with the
    choice at the root varying slowest and the choices in the last child
    fastest.  What has not been grown stays as it is. -/

namespace SequentCalculus

mutual

/-- All derivations of a tree. -/
def ProofTree.split : ProofTree → List ProofTree
  | .node root branches false => [.node root branches false]
  | .node root branches true => splitBranches root branches

/-- All derivations that start with one of the branches. -/
def splitBranches (root : Sequent) : List (Branch ProofTree) → List ProofTree
  | [] => []
  | b :: bs => splitBranch root b ++ splitBranches root bs

/-- All derivations that start with a branch. -/
def splitBranch (root : Sequent) : Branch ProofTree → List ProofTree
  | .initial => [.ofBranches root [.initial]]
  | .premises ts => (splitTrees ts).map fun us => .ofBranches root [.premises us]

/-- All choices of one derivation for each of the trees. -/
def splitTrees : List ProofTree → List (List ProofTree)
  | [] => [[]]
  | t :: ts => t.split.flatMap fun u => (splitTrees ts).map (u :: ·)

end

end SequentCalculus
