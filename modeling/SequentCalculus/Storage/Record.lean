import SequentCalculus.Error
import SequentCalculus.Grammar.Reading
import SequentCalculus.ProofTree.Basic

/-! # Records — proof trees in writing

    A record keeps the sequent of each node as text and the premises of each
    branch as records; a branch without premises marks an atomic sequent.
    Reading a record back parses every sequent and admits only the shapes that
    decomposition produces: on an atomic sequent no branch or a single one
    without premises, and on any other sequent branches of one or two. -/

namespace SequentCalculus

/-- The written form of a node with everything below it. -/
inductive TreeRecord
  | node (sequent : String) (branches : List (List TreeRecord))
  deriving Repr

/-- Whether a sequent may have branches with these numbers of premises. -/
def isShape (root : Sequent) (counts : List Nat) : Bool :=
  if root.isAtomic then counts == [] || counts == [0]
  else counts.all fun n => n == 1 || n == 2

/-- Refuses branches that no decomposition produces. -/
def checkShape (root : Sequent) (counts : List Nat) : Except Error Unit :=
  if isShape root counts then .ok () else .error (.decode (.branchShape root counts))

/-- The record of a tree. -/
def ProofTree.toRecord : ProofTree → TreeRecord :=
  fold fun root branches _ => .node root.display (branches.map Branch.children)

mutual

/-- The tree of a record, the root before its branches and each branch from
    left to right. -/
def TreeRecord.toTree : TreeRecord → Except Error ProofTree
  | .node sequent branches =>
      match Sequent.parse sequent with
      | .error e => .error (.reading e)
      | .ok root =>
          match checkShape root (branches.map List.length) with
          | .error e => .error e
          | .ok _ =>
              match recordBranches branches with
              | .error e => .error e
              | .ok bs => .ok (.ofBranches root bs)

/-- The branches of a record. -/
def recordBranches : List (List TreeRecord) → Except Error (List (Branch ProofTree))
  | [] => .ok []
  | b :: bs =>
      match recordTrees b with
      | .error e => .error e
      | .ok ts =>
          match recordBranches bs with
          | .error e => .error e
          | .ok rest => .ok ((if ts.isEmpty then .initial else .premises ts) :: rest)

/-- The trees of several records. -/
def recordTrees : List TreeRecord → Except Error (List ProofTree)
  | [] => .ok []
  | r :: rs =>
      match r.toTree with
      | .error e => .error e
      | .ok t =>
          match recordTrees rs with
          | .error e => .error e
          | .ok ts => .ok (t :: ts)

end

end SequentCalculus
