import SequentCalculus.Log.Event
import SequentCalculus.ProofTree.Growth
import SequentCalculus.ProofTree.Queries

/-! # What is reported while trees grow and split

    Growth reports every decomposition in the order in which it is made, up to
    the first one that fails.  Splitting reports every grown node after the
    nodes below it. -/

namespace SequentCalculus

/-- The events of work done in turn up to the first failure, and whether
    all of them succeeded. -/
def untilFailure {α : Type} (work : α → List Event × Bool) : List α → List Event × Bool
  | [] => ([], true)
  | a :: as =>
      match work a with
      | (es, false) => (es, false)
      | (es, true) =>
          let (rest, ok) := untilFailure work as
          (es ++ rest, ok)

/-- The event of decomposing a sequent, unless that fails. -/
def Sequent.decomposeEvents (rules : RuleSet) (supply : Supply) (s : Sequent) : List Event :=
  match Decomposition.of rules supply s with
  | .error _ => []
  | .ok .initial => [.atomic s]
  | .ok (.step _ alts) => [.decomposed s alts.length]

/-- The decompositions made for a sequent, and whether its growth succeeds. -/
def Sequent.growthSteps (rules : RuleSet) (supply : Supply) (s : Sequent) : List Event × Bool :=
  match h : Decomposition.of rules supply s with
  | .error _ => ([], false)
  | .ok .initial => ([.atomic s], true)
  | .ok (.step _ alts) =>
      let (es, ok) := untilFailure (fun ⟨alt, halt⟩ =>
        untilFailure (fun ⟨p, hp⟩ =>
          have : p.connectives < s.connectives := Decomposition.connectives_lt h halt hp
          p.growthSteps rules (supply.below alt)) alt.premises.attach) alts.attach
      (.decomposed s alts.length :: es, ok)
termination_by s.connectives

namespace ProofTree

/-- The report of a tree that has just been grown. -/
def grownEvent (t : ProofTree) : Event := .grown t.root t.depth t.leafCount t.alternatives

/-- The events of growing a tree. -/
def growEvents (rules : RuleSet) (supply : Supply) (t : ProofTree) : List Event :=
  if t.isGrown then []
  else
    .growing t.root :: (t.root.growthSteps rules supply).1 ++
      match t.grow rules supply with
      | .ok u => [u.grownEvent]
      | .error _ => []

/-- The events of splitting a tree, with the number of its derivations. -/
def splitReport : ProofTree → List Event × Nat :=
  fold fun root branches grown =>
    if grown then
      let counts := branches.map fun
        | .initial => 1
        | .premises reports => (reports.map (·.2)).foldl (· * ·) 1
      let below := (branches.flatMap Branch.children).flatMap (·.1)
      (below ++ [.split root (total counts)], total counts)
    else ([], 1)

/-- The events of splitting a tree. -/
def splitEvents (t : ProofTree) : List Event := t.splitReport.1

end ProofTree

end SequentCalculus
