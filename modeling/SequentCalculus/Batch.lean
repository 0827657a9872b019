import SequentCalculus.Log.Growth

/-! # Growing several trees at once

    A pool of workers shares one queue of numbered sequents.  A worker takes the
    next sequent, grows its tree and hands in the result under the sequent's
    number; then it takes the next one.  The workers move one at a time, in an
    order given by a schedule, and after that in turn until nothing is left to do.
    When all have come to rest, the results are put back into the order of the
    sequents. -/

namespace SequentCalculus

/-- The number of workers for a number of sequents: as many as asked for, or
    `available` if none are asked for, but never more than there are sequents. -/
def workerCount (available requested total : Nat) : Nat :=
  min (if requested = 0 then max available 1 else requested) (max total 1)

/-- What a worker is doing. -/
inductive Worker
  | idle
  /-- It has taken a sequent from the queue. -/
  | holding (index : Nat) (s : Sequent)
  /-- It has a result to hand in. -/
  | finished (index : Nat) (result : Except Error ProofTree)

/-- The workers, the sequents not yet taken, and the results handed in, together
    with what was reported so far. -/
structure Pool where
  queue : List (Nat × Sequent)
  workers : List Worker
  results : List (Nat × Except Error ProofTree) := []
  events : List Event := []

namespace Pool

/-- The sequents with their numbers. -/
def numbered (index : Nat) : List Sequent → List (Nat × Sequent)
  | [] => []
  | s :: ss => (index, s) :: numbered (index + 1) ss

/-- The pool before its first step. -/
def start (workers : Nat) (ss : List Sequent) : Pool :=
  { queue := numbered 0 ss, workers := List.replicate workers .idle }

/-- Worker number `w` makes its next step, if it has one to make. -/
def step (rules : RuleSet) (supply : Supply) (p : Pool) (w : Nat) : Pool :=
  match p.workers[w]? with
  | none => p
  | some .idle =>
      match p.queue with
      | [] => p
      | (i, s) :: queue =>
          { p with
            queue := queue
            workers := p.workers.set w (.holding i s)
            events := p.events ++ [.workerGrows w i] }
  | some (.holding i s) =>
      let t := ProofTree.ofSequent s
      { p with
        workers := p.workers.set w (.finished i (t.grow rules supply))
        events := p.events ++ t.growEvents rules supply }
  | some (.finished i r) =>
      { p with workers := p.workers.set w .idle, results := p.results ++ [(i, r)] }

/-- The workers move in the order of a schedule. -/
def run (rules : RuleSet) (supply : Supply) (schedule : List Nat) (p : Pool) : Pool :=
  schedule.foldl (step rules supply) p

/-- The result handed in last under a number. -/
def result (p : Pool) (index : Nat) : Except Error (Except Error ProofTree) :=
  match p.results.reverse.lookup index with
  | some r => .ok r
  | none => .error (.noResult index)

/-- The results of the first `total` sequents in their order. -/
def collect (p : Pool) (total : Nat) : Except Error (List (Except Error ProofTree)) :=
  (List.range total).mapM p.result

end Pool

/-- The schedule in which all workers move in turn, several rounds long. -/
def inTurn (workers : Nat) : (rounds : Nat) → List Nat
  | 0 => []
  | rounds + 1 => List.range workers ++ inTurn workers rounds

/-- The pool that has grown a tree for each sequent.  The workers move in the order
    of the schedule as far as it goes, and then in turn: no sequent takes a worker
    more than three steps. -/
def growPool (rules : RuleSet) (supply : Supply) (schedule : List Nat) (workers : Nat)
    (ss : List Sequent) : Pool :=
  (Pool.start workers ss).run rules supply (schedule ++ inTurn workers (3 * ss.length))

/-- Grows a tree for each sequent, with a result for each. -/
def growMany (rules : RuleSet) (supply : Supply) (schedule : List Nat) (workers : Nat)
    (ss : List Sequent) : Except Error (List (Except Error ProofTree)) :=
  (growPool rules supply schedule workers ss).collect ss.length

end SequentCalculus
