import SequentCalculus.ProofTree.Basic

/-! # Questions about a proof tree

    How many derivations it holds, how deep and how wide it is, and whether
    one of its derivations is complete.  All are folds over the tree. -/

namespace SequentCalculus

/-- The bound at which counts of derivations stay. -/
def countLimit : Nat := 0xffffffffffffffff

/-- A sum that stays at the bound. -/
def boundedAdd (m n : Nat) : Nat := min (m + n) countLimit

/-- A product that stays at the bound. -/
def boundedMul (m n : Nat) : Nat := min (m * n) countLimit

/-- The largest of several numbers, and 0 if there are none. -/
def largest (ns : List Nat) : Nat := ns.foldr max 0

namespace ProofTree

/-- The number of derivations: one branch has to be chosen at every node, so
    branches add up and the children of a branch multiply. -/
def alternatives : ProofTree → Nat :=
  fold fun _ branches grown =>
    if grown then
      branches.foldl (fun n b => boundedAdd n
        (match b with
          | .initial => 1
          | .premises counts => counts.foldl boundedMul 1)) 0
    else 1

/-- The number of rules on the longest path to a leaf. -/
def depth : ProofTree → Nat :=
  fold fun _ branches _ => largest ((branches.flatMap Branch.children).map (1 + ·))

/-- The number of leaves over all branches; a node without children is a leaf. -/
def leafCount : ProofTree → Nat :=
  fold fun _ branches _ => max (total (branches.flatMap Branch.children)) 1

/-- Whether no node has more than one branch. -/
def isAndOnly : ProofTree → Bool :=
  fold fun _ branches _ =>
    branches.length ≤ 1 && (branches.flatMap Branch.children).all id

/-- Whether some choice of branches ends in atomic sequents with an atom on
    both sides throughout. -/
def isClosed : ProofTree → Bool :=
  fold fun root branches _ =>
    branches.any fun
      | .initial => root.isIdentity
      | .premises closed => closed.all id

end ProofTree

end SequentCalculus
