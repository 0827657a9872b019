import SequentCalculus.ProofTree.Basic
import SequentCalculus.Sequent.Display

/-! # Outlines — a proof tree as indented lines

    Each node is a line with its tag and its sequent, and its children stand
    below it, two columns further in.  Where a node has several branches, each
    begins with a line `alt i/n` and its children stand one step deeper. -/

namespace SequentCalculus

/-- A line break followed by an indentation. -/
def lineBreak (indent : Nat) : Piece := .blank ("\n" ++ "".pushn ' ' indent)

theorem toList_lineBreak (indent : Nat) :
    (lineBreak indent).text.toList = '\n' :: List.replicate indent ' ' := by
  have hblanks : ("".pushn ' ' indent).toList = List.replicate indent ' ' := by
    rw [String.pushn_eq_repeat_push]
    induction indent with
    | zero => rfl
    | succ n ih => rw [Nat.repeat, String.toList_push, ih, List.replicate_succ']
  show ("\n" ++ "".pushn ' ' indent).toList = _
  rw [String.toList_append, hblanks]
  rfl

/-- The line of a node. -/
def nodeLine (s : Sequent) : Styled :=
  Styled.only .operator s.tag.text ++ [.blank "  "] ++ s.styled

/-- Texts below each other, each given the column it stands at. -/
def below (indent : Nat) (texts : List (Nat → Styled)) : Styled :=
  texts.flatMap fun t => lineBreak indent :: t indent

/-- The label of a branch, with its number among all of them. -/
def branchLabel (i total : Nat) : String := "alt " ++ toString i ++ "/" ++ toString total

/-- The branches of a node with several of them, each under its label. -/
def labelledBranches (indent total : Nat) : Nat → List (Branch (Nat → Styled)) → Styled
  | _, [] => []
  | i, b :: bs =>
      lineBreak indent ::
        (Styled.only .punctuation (branchLabel i total) ++ below (indent + 2) b.children ++
          labelledBranches indent total (i + 1) bs)

/-- The branches of a node.  A single one needs no label. -/
def branchesBelow (indent : Nat) : List (Branch (Nat → Styled)) → Styled
  | [] => []
  | [b] => below indent b.children
  | bs => labelledBranches indent bs.length 1 bs

/-- The outline of a node, from those of its children. -/
def outlineNode (root : Sequent) (branches : List (Branch (Nat → Styled))) (_grown : Bool)
    (indent : Nat) : Styled :=
  nodeLine root ++ branchesBelow (indent + 2) branches

namespace ProofTree

/-- The outline of a tree whose root stands at a given column. -/
def styledAt : ProofTree → Nat → Styled := fold outlineNode

theorem styledAt_node (root : Sequent) (branches : List (Branch ProofTree)) (grown : Bool)
    (indent : Nat) :
    (node root branches grown).styledAt indent =
      nodeLine root ++ branchesBelow (indent + 2) (branches.map (Branch.map styledAt)) :=
  congrFun (fold_node outlineNode root branches grown) indent

/-- The outline of a tree. -/
def styled (t : ProofTree) : Styled := t.styledAt 0

/-- The outline as plain text. -/
def outline (t : ProofTree) : String := t.styled.plain

end ProofTree

end SequentCalculus
