import SequentCalculus.Decomposition
import SequentCalculus.ProofTree.Basic

/-! # Growing a proof tree

    A tree grows by decomposing its root and then, alternative by alternative,
    every premise, until all leaves are atomic.  The name that a quantifier
    took counts as used below its alternative.  The recursion ends because each
    premise has fewer connectives than the sequent it derives.

    Growth fails as a whole when one decomposition fails, and then the tree is
    left as it was.  `ProofTree.growInPlace` is the procedure that works on a
    held tree and changes it step by step. -/

namespace SequentCalculus

/-- The supply below an alternative. -/
def Supply.below (supply : Supply) (alt : Alternative) : Supply :=
  match alt.witness with
  | some w => supply.descend w
  | none => supply

/-- The fully grown tree of a sequent. -/
def Sequent.grow (rules : RuleSet) (supply : Supply) (s : Sequent) : Except Error ProofTree :=
  match h : Decomposition.of rules supply s with
  | .error e => .error e
  | .ok .initial => .ok (.node s [.initial] true)
  | .ok (.step _ alts) => do
      let branches ← alts.attach.mapM fun ⟨alt, halt⟩ => do
        let children ← alt.premises.attach.mapM fun ⟨p, hp⟩ =>
          have : p.connectives < s.connectives := Decomposition.connectives_lt h halt hp
          p.grow rules (supply.below alt)
        return .premises children
      return .node s branches true
termination_by s.connectives

/-- Grows a tree that has not been grown before. -/
def ProofTree.grow (rules : RuleSet) (supply : Supply) (t : ProofTree) : Except Error ProofTree :=
  if t.isGrown then .error (.alreadyGrown t.root) else t.root.grow rules supply

/-! ## Growth in place -/

namespace ProofTree

/-- Puts other branches in place of those of a tree. -/
def setBranches (branches : List (Branch ProofTree)) : ProofTree → ProofTree
  | node root _ grown => node root branches grown

/-- Marks a tree as grown. -/
def markGrown : ProofTree → ProofTree
  | node root branches _ => node root branches true

/-- Lets a procedure work on a tree of its own and gives what it makes of it. -/
def workOn (t : ProofTree) (work : EStateM Error ProofTree Unit) :
    EStateM Error ProofTree ProofTree :=
  match work.run t with
  | .ok _ u => pure u
  | .error e _ => throw e

/-- Gives the tree that is held, whose root is `s`, its branches and marks it as
    grown.  Every child is a new tree that grows in place before the branches are
    put together. -/
def growFrom (rules : RuleSet) (supply : Supply) (s : Sequent) : EStateM Error ProofTree Unit := do
  let branches ←
    match h : Decomposition.of rules supply s with
    | .error e => throw e
    | .ok .initial => pure [.initial]
    | .ok (.step _ alts) =>
        alts.attach.mapM fun ⟨alt, halt⟩ => do
          let children ← alt.premises.attach.mapM fun ⟨p, hp⟩ =>
            have : p.connectives < s.connectives := Decomposition.connectives_lt h halt hp
            (ofSequent p).workOn (growFrom rules (supply.below alt) p)
          return .premises children
  modify (setBranches branches)
  modify markGrown
termination_by s.connectives

/-- Grows the tree that is held, if it has not been grown before. -/
def growInPlace (rules : RuleSet) (supply : Supply) : EStateM Error ProofTree Unit := do
  let t ← get
  if t.isGrown then throw (.alreadyGrown t.root)
  growFrom rules supply t.root

end ProofTree

end SequentCalculus
