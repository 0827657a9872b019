import SequentCalculus.Batch
import SequentCalculus.Proofs.Failure

/-! # Several trees at once — the schedule does not matter

    The workers of a pool move in any order.  Two facts about a single move carry
    over to every interleaving of moves:

    * each sequent is at one place, in the queue, with a worker or among the
      results, and its result will be or has been handed in under its own number
      (`Moves.account_perm`);
    * a sequent takes three moves from the queue to the results, and every move
      is one of these (`Moves.work_eq`).

    So every interleaving comes to an end, and where no worker can move any more,
    the results are those of growing the sequents one by one
    (`Interleaving.collect_eq`).  Whatever schedule the workers begin with, moving
    in turn after it is enough to get there (`growMany_eq`). -/

namespace SequentCalculus

/-! ## Lists -/

/-- A list around one of its members, and the same list with another member in
    its place. -/
theorem exists_append_of_getElem? {α : Type} {as : List α} {i : Nat} {a : α}
    (h : as[i]? = some a) :
    ∃ before after, as = before ++ a :: after ∧ ∀ b, as.set i b = before ++ b :: after := by
  induction as generalizing i with
  | nil => cases h
  | cons c as ih =>
      cases i with
      | zero =>
          cases h
          exact ⟨[], as, rfl, fun b => rfl⟩
      | succ i =>
          obtain ⟨before, after, has, hset⟩ := ih h
          refine ⟨c :: before, after, by rw [has]; rfl, fun b => ?_⟩
          rw [List.set_cons_succ, hset b]
          rfl

/-- What the members of a list come to, after one of them has been replaced. -/
theorem total_map_set {α : Type} (f : α → Nat) {as : List α} {i : Nat} {a : α}
    (h : as[i]? = some a) (b : α) :
    total ((as.set i b).map f) + f a = total (as.map f) + f b := by
  obtain ⟨before, after, has, hset⟩ := exists_append_of_getElem? h
  rw [hset, has]
  simp only [List.map_append, List.map_cons, total_append, total_cons]
  omega

/-- To set an element is to exchange what comes from it. -/
theorem flatMap_set_perm {α β : Type} (f : α → List β) {as : List α} {i : Nat} {a : α}
    (h : as[i]? = some a) (b : α) :
    (f a ++ (as.set i b).flatMap f).Perm (f b ++ as.flatMap f) := by
  obtain ⟨before, after, has, hset⟩ := exists_append_of_getElem? h
  rw [hset, has]
  simp only [List.flatMap_append, List.flatMap_cons]
  -- both sides are the members before, the two at the place, and those after
  calc f a ++ (before.flatMap f ++ (f b ++ after.flatMap f))
    _ = f a ++ before.flatMap f ++ f b ++ after.flatMap f := by simp only [List.append_assoc]
    List.Perm _ (f b ++ (f a ++ before.flatMap f) ++ after.flatMap f) :=
        List.perm_append_comm.append_right _
    List.Perm _ (f b ++ (before.flatMap f ++ f a) ++ after.flatMap f) :=
        (List.perm_append_comm.append_left _).append_right _
    _ = f b ++ (before.flatMap f ++ (f a ++ after.flatMap f)) := by simp only [List.append_assoc]

/-- Where no key stands twice, every entry is found under its key. -/
theorem lookup_of_mem {β : Type} {entries : List (Nat × β)} {k : Nat} {b : β}
    (hkeys : (entries.map Prod.fst).Nodup) (h : (k, b) ∈ entries) :
    entries.lookup k = some b := by
  induction entries with
  | nil => cases h
  | cons e entries ih =>
      obtain ⟨k', b'⟩ := e
      rw [List.map_cons, List.nodup_cons] at hkeys
      rcases List.mem_cons.mp h with heq | hmem
      · cases heq
        rw [List.lookup_cons, beq_self_eq_true]
      · have hne : k ≠ k' := by
          rintro rfl
          exact hkeys.1 (List.mem_map.mpr ⟨_, hmem, rfl⟩)
        rw [List.lookup_cons, beq_false_of_ne hne]
        exact ih hkeys.2 hmem

/-! ## Moves -/

namespace Pool

/-- The result that belongs to a numbered sequent: its own tree or its own error. -/
def due (rules : RuleSet) (supply : Supply) (job : Nat × Sequent) : Nat × Except Error ProofTree :=
  (job.1, (ProofTree.ofSequent job.2).grow rules supply)

/-- A move of worker number `w`: it takes the next sequent from the queue, grows
    the tree of the sequent it holds, or hands in its result. -/
inductive Moves (rules : RuleSet) (supply : Supply) (w : Nat) : Pool → Pool → Prop
  | take {p : Pool} {i : Nat} {s : Sequent} {queue : List (Nat × Sequent)}
      (hw : p.workers[w]? = some .idle) (hq : p.queue = (i, s) :: queue) :
      Moves rules supply w p
        { p with
          queue := queue
          workers := p.workers.set w (.holding i s)
          events := p.events ++ [.workerGrows w i] }
  | grow {p : Pool} {i : Nat} {s : Sequent} (hw : p.workers[w]? = some (.holding i s)) :
      Moves rules supply w p
        { p with
          workers := p.workers.set w (.finished i ((ProofTree.ofSequent s).grow rules supply))
          events := p.events ++ (ProofTree.ofSequent s).growEvents rules supply }
  | send {p : Pool} {i : Nat} {r : Except Error ProofTree}
      (hw : p.workers[w]? = some (.finished i r)) :
      Moves rules supply w p
        { p with workers := p.workers.set w .idle, results := p.results ++ [(i, r)] }

/-- No worker can move. -/
def AtRest (rules : RuleSet) (supply : Supply) (p : Pool) : Prop :=
  ∀ w p', ¬ Moves rules supply w p p'

/-- Moves of several workers one after the other, each named by the number of the
    worker that makes it. -/
inductive Interleaving (rules : RuleSet) (supply : Supply) : Pool → List Nat → Pool → Prop
  | nil (p : Pool) : Interleaving rules supply p [] p
  | cons {p p' p'' : Pool} {w : Nat} {schedule : List Nat} (h : Moves rules supply w p p')
      (hs : Interleaving rules supply p' schedule p'') :
      Interleaving rules supply p (w :: schedule) p''

variable {rules : RuleSet} {supply : Supply} {w : Nat} {p p' : Pool}

/-- A move is what a step of the pool does. -/
theorem Moves.step_eq (h : Moves rules supply w p p') : p.step rules supply w = p' := by
  cases h with
  | take hw hq => simp only [step, hw, hq]
  | grow hw => simp only [step, hw]
  | send hw => simp only [step, hw]

/-- A worker whose turn it is makes a move, or it has none to make and nothing
    changes. -/
theorem step_cases (rules : RuleSet) (supply : Supply) (p : Pool) (w : Nat) :
    Moves rules supply w p (p.step rules supply w) ∨
      p.step rules supply w = p ∧ ∀ p', ¬ Moves rules supply w p p' := by
  by_cases hmove : ∃ p', Moves rules supply w p p'
  · obtain ⟨p', h⟩ := hmove
    exact Or.inl (h.step_eq ▸ h)
  · refine Or.inr ⟨?_, fun p' h => hmove ⟨p', h⟩⟩
    cases hw : p.workers[w]? with
    | none => simp only [step, hw]
    | some worker =>
        cases worker with
        | idle =>
            cases hq : p.queue with
            | nil => simp only [step, hw, hq]
            | cons job queue => exact absurd ⟨_, .take hw hq⟩ hmove
        | holding i s => exact absurd ⟨_, .grow hw⟩ hmove
        | finished i r => exact absurd ⟨_, .send hw⟩ hmove

/-! ## What a move keeps -/

/-- The result that a worker is about to hand in. -/
def ofWorker (rules : RuleSet) (supply : Supply) : Worker → List (Nat × Except Error ProofTree)
  | .idle => []
  | .holding i s => [due rules supply (i, s)]
  | .finished i r => [(i, r)]

/-- The results that are still to be handed in and those that have been. -/
def account (rules : RuleSet) (supply : Supply) (p : Pool) : List (Nat × Except Error ProofTree) :=
  p.queue.map (due rules supply) ++ (p.workers.flatMap (ofWorker rules supply) ++ p.results)

/-- A move passes a result on, and no result changes, goes away or comes twice. -/
theorem Moves.account_perm (h : Moves rules supply w p p') :
    (p'.account rules supply).Perm (p.account rules supply) := by
  cases h with
  | @take i s queue hw hq =>
      -- the result moves from the head of the queue to the place of the worker
      have hplace := flatMap_set_perm (ofWorker rules supply) hw (.holding i s)
      rw [account, account, hq, List.map_cons, List.cons_append]
      exact ((hplace.append_right _).append_left _).trans List.perm_middle
  | @grow i s hw =>
      have hplace := flatMap_set_perm (ofWorker rules supply) hw
        (.finished i ((ProofTree.ofSequent s).grow rules supply))
      exact (((List.perm_append_left_iff _).mp hplace).append_right _).append_left _
  | @send i r hw =>
      -- the result moves from the place of the worker to the end
      have hplace := flatMap_set_perm (ofWorker rules supply) hw .idle
      refine List.Perm.append_left _ ?_
      rw [← List.append_assoc]
      exact (List.perm_append_singleton _ _).trans (hplace.append_right _)

/-- The moves that a worker has yet to make for its sequent. -/
def workOf : Worker → Nat
  | .idle => 0
  | .holding _ _ => 2
  | .finished _ _ => 1

/-- The moves that are left in a pool. -/
def work (p : Pool) : Nat := 3 * p.queue.length + total (p.workers.map workOf)

/-- Every move does one unit of the work that is left. -/
theorem Moves.work_eq (h : Moves rules supply w p p') : p'.work + 1 = p.work := by
  cases h with
  | @take i s _ hw hq =>
      have hplace := total_map_set workOf hw (.holding i s)
      simp only [workOf] at hplace
      simp only [work, hq, List.length_cons]
      omega
  | @grow i s hw =>
      have hplace := total_map_set workOf hw
        (.finished i ((ProofTree.ofSequent s).grow rules supply))
      simp only [workOf] at hplace
      simp only [work]
      omega
  | send hw =>
      have hplace := total_map_set workOf hw .idle
      simp only [workOf] at hplace
      simp only [work]
      omega

theorem Moves.length_workers (h : Moves rules supply w p p') :
    p'.workers.length = p.workers.length := by
  cases h <;> exact List.length_set

/-! ## Interleavings -/

namespace Interleaving

variable {schedule : List Nat}

/-- An interleaving is a run by its schedule. -/
theorem run_eq (h : Interleaving rules supply p schedule p') :
    p.run rules supply schedule = p' := by
  induction h with
  | nil p => rfl
  | @cons p p' p'' w schedule h _ ih =>
      show Pool.run rules supply schedule (p.step rules supply w) = p''
      rw [h.step_eq]
      exact ih

/-- What has been and will be delivered stays the same all along. -/
theorem account_perm (h : Interleaving rules supply p schedule p') :
    (p'.account rules supply).Perm (p.account rules supply) := by
  induction h with
  | nil p => exact .refl _
  | cons h _ ih => exact ih.trans h.account_perm

/-- A schedule does as many units of work as it is long. -/
theorem work_eq (h : Interleaving rules supply p schedule p') :
    p'.work + schedule.length = p.work := by
  induction h with
  | nil p => rfl
  | cons h _ ih =>
      have hmove := h.work_eq
      rw [List.length_cons]
      omega

theorem length_workers (h : Interleaving rules supply p schedule p') :
    p'.workers.length = p.workers.length := by
  induction h with
  | nil p => rfl
  | cons h _ ih => exact ih.trans h.length_workers

end Interleaving

/-- Any run is an interleaving of those of its turns in which a worker moves. -/
theorem exists_interleaving (rules : RuleSet) (supply : Supply) (schedule : List Nat) (p : Pool) :
    ∃ turns, turns.Sublist schedule ∧
      Interleaving rules supply p turns (p.run rules supply schedule) := by
  induction schedule generalizing p with
  | nil => exact ⟨[], .refl _, .nil p⟩
  | cons w schedule ih =>
      obtain ⟨turns, hsub, hturns⟩ := ih (p.step rules supply w)
      rcases step_cases rules supply p w with hmove | ⟨hsame, -⟩
      · exact ⟨w :: turns, hsub.cons_cons w, .cons hmove hturns⟩
      · refine ⟨turns, hsub.cons w, ?_⟩
        rw [hsame] at hturns
        show Interleaving rules supply p turns
          (Pool.run rules supply schedule (p.step rules supply w))
        rw [hsame]
        exact hturns

/-! ## Coming to rest -/

/-- A pool with workers comes to rest only when its queue is empty and no worker
    has anything in hand. -/
theorem AtRest.eq_nil (h : AtRest rules supply p) (hworkers : p.workers ≠ []) :
    p.queue = [] ∧ ∀ worker ∈ p.workers, worker = .idle := by
  have hidle : ∀ worker ∈ p.workers, worker = .idle := by
    intro worker hmem
    obtain ⟨w, hw⟩ := List.mem_iff_getElem?.mp hmem
    cases worker with
    | idle => rfl
    | holding i s => exact absurd (.grow hw) (h w _)
    | finished i r => exact absurd (.send hw) (h w _)
  refine ⟨?_, hidle⟩
  obtain ⟨worker, hmem⟩ := List.exists_mem_of_ne_nil _ hworkers
  obtain rfl := hidle worker hmem
  obtain ⟨w, hw⟩ := List.mem_iff_getElem?.mp hmem
  cases hq : p.queue with
  | nil => rfl
  | cons job queue => exact absurd (.take hw hq) (h w _)

/-- At rest there is nothing left to do. -/
theorem AtRest.work_eq_zero (h : AtRest rules supply p) (hworkers : p.workers ≠ []) :
    p.work = 0 := by
  obtain ⟨hq, hidle⟩ := h.eq_nil hworkers
  have hwork : p.workers.map workOf = p.workers.map fun _ => 0 :=
    List.map_congr_left fun worker hmem => by rw [hidle worker hmem]; rfl
  rw [work, hq, hwork, List.map_const', total_eq_sum, List.sum_replicate]
  simp

/-- At rest everything due has been delivered. -/
theorem AtRest.account_eq (h : AtRest rules supply p) (hworkers : p.workers ≠ []) :
    p.account rules supply = p.results := by
  obtain ⟨hq, hidle⟩ := h.eq_nil hworkers
  have hnone : p.workers.flatMap (ofWorker rules supply) = [] :=
    List.flatMap_eq_nil_iff.mpr fun worker hmem => by rw [hidle worker hmem]; rfl
  rw [account, hq, hnone]
  rfl

/-- With nothing left to do the pool is at rest. -/
theorem atRest_of_work_eq_zero (h : p.work = 0) : AtRest rules supply p := by
  intro w p' hmove
  have hwork := hmove.work_eq
  omega

/-! ## Results in the order of the sequents -/

theorem map_fst_numbered (k : Nat) (ss : List Sequent) :
    (numbered k ss).map Prod.fst = List.range' k ss.length := by
  induction ss generalizing k with
  | nil => rfl
  | cons s ss ih => rw [numbered, List.map_cons, ih, List.length_cons, List.range'_succ]

theorem length_numbered (k : Nat) (ss : List Sequent) : (numbered k ss).length = ss.length := by
  have hlength := congrArg List.length (map_fst_numbered k ss)
  rw [List.length_map, List.length_range'] at hlength
  exact hlength

/-- The results of the sequents, each under its number. -/
theorem forall₂_numbered (rules : RuleSet) (supply : Supply) (k : Nat) (ss : List Sequent) :
    List.Forall₂ (fun i r => (i, r) ∈ (numbered k ss).map (due rules supply))
      (List.range' k ss.length)
      (ss.map fun s => (ProofTree.ofSequent s).grow rules supply) := by
  induction ss generalizing k with
  | nil => exact .nil
  | cons s ss ih =>
      rw [List.length_cons, List.range'_succ, List.map_cons, numbered, List.map_cons]
      refine .cons List.mem_cons_self ((ih (k + 1)).imp ?_)
      intro i r hmem
      exact List.mem_cons_of_mem _ hmem

/-- Results handed in once for each sequent, in whatever order, are put back into
    the order of the sequents. -/
theorem collect_of_perm {ss : List Sequent}
    (h : p.results.Perm ((numbered 0 ss).map (due rules supply))) :
    p.collect ss.length = .ok (ss.map fun s => (ProofTree.ofSequent s).grow rules supply) := by
  have hkeys : (p.results.reverse.map Prod.fst).Nodup := by
    have hperm : (p.results.reverse.map Prod.fst).Perm (List.range' 0 ss.length) := by
      rw [← map_fst_numbered]
      refine ((List.reverse_perm _).trans h).map Prod.fst |>.trans ?_
      rw [List.map_map]
      exact .refl _
    exact hperm.nodup_iff.mpr List.nodup_range'
  rw [collect, mapM_eq_ok_iff, List.range_eq_range']
  refine (forall₂_numbered rules supply 0 ss).imp ?_
  intro i r hmem
  have hfound : p.results.reverse.lookup i = some r :=
    lookup_of_mem hkeys (List.mem_reverse.mpr (h.mem_iff.mpr hmem))
  rw [result, hfound]

/-- At the start everything is due. -/
theorem account_start (rules : RuleSet) (supply : Supply) (workers : Nat) (ss : List Sequent) :
    (start workers ss).account rules supply = (numbered 0 ss).map (due rules supply) := by
  have hnone : (List.replicate workers Worker.idle).flatMap (ofWorker rules supply) = [] :=
    List.flatMap_eq_nil_iff.mpr fun worker hmem => by rw [List.eq_of_mem_replicate hmem]; rfl
  show (numbered 0 ss).map (due rules supply) ++
    ((List.replicate workers Worker.idle).flatMap (ofWorker rules supply) ++ []) = _
  rw [hnone]
  exact List.append_nil _

/-- Each sequent takes three moves: it is taken, grown and delivered. -/
theorem work_start (workers : Nat) (ss : List Sequent) :
    (start workers ss).work = 3 * ss.length := by
  show 3 * (numbered 0 ss).length + total ((List.replicate workers Worker.idle).map workOf) = _
  rw [length_numbered, List.map_replicate, total_eq_sum, List.sum_replicate]
  simp [workOf]

/-- However the workers take turns, at rest every sequent has its result. -/
theorem Interleaving.collect_eq {workers : Nat} {ss : List Sequent} {schedule : List Nat}
    (h : Interleaving rules supply (start workers ss) schedule p) (hworkers : 0 < workers)
    (hrest : AtRest rules supply p) :
    p.results.Perm ((numbered 0 ss).map (due rules supply)) ∧
    p.collect ss.length = .ok (ss.map fun s => (ProofTree.ofSequent s).grow rules supply) := by
  have hne : p.workers ≠ [] := by
    have hlength : p.workers.length = workers := h.length_workers.trans List.length_replicate
    exact List.ne_nil_of_length_pos (by omega)
  have hperm := h.account_perm
  rw [hrest.account_eq hne, account_start] at hperm
  exact ⟨hperm, collect_of_perm hperm⟩

/-! ## Taking turns -/

/-- No schedule makes work. -/
theorem work_run_le (rules : RuleSet) (supply : Supply) (schedule : List Nat) (p : Pool) :
    (p.run rules supply schedule).work ≤ p.work := by
  obtain ⟨turns, -, hturns⟩ := exists_interleaving rules supply schedule p
  have hwork := hturns.work_eq
  omega

theorem length_workers_run (rules : RuleSet) (supply : Supply) (schedule : List Nat) (p : Pool) :
    (p.run rules supply schedule).workers.length = p.workers.length := by
  obtain ⟨turns, -, hturns⟩ := exists_interleaving rules supply schedule p
  exact hturns.length_workers

/-- A schedule in which a worker that can move has a turn gets the work on, by this
    worker or by one before it. -/
theorem work_run_lt {schedule : List Nat} (h : Moves rules supply w p p') (hw : w ∈ schedule) :
    (p.run rules supply schedule).work < p.work := by
  induction schedule with
  | nil => cases hw
  | cons v schedule ih =>
      show (Pool.run rules supply schedule (p.step rules supply v)).work < p.work
      rcases step_cases rules supply p v with hmove | ⟨hsame, hnone⟩
      · have hle := work_run_le rules supply schedule (p.step rules supply v)
        have hwork := hmove.work_eq
        omega
      · -- the turn passes, so it was not that of the worker which can move
        rw [hsame]
        rcases List.mem_cons.mp hw with rfl | hw
        · exact absurd h (hnone p')
        · exact ih hw

theorem run_append (rules : RuleSet) (supply : Supply) (first rest : List Nat) (p : Pool) :
    p.run rules supply (first ++ rest) = (p.run rules supply first).run rules supply rest := by
  rw [run, List.foldl_append]
  rfl

/-- Every round of turns gets the work on, as long as there is any left. -/
theorem work_run_inTurn (rules : RuleSet) (supply : Supply) {workers : Nat} (hworkers : 0 < workers)
    (rounds : Nat) (p : Pool) (hp : p.workers.length = workers) :
    (p.run rules supply (inTurn workers rounds)).work ≤ p.work - rounds := by
  induction rounds generalizing p with
  | zero => exact work_run_le rules supply [] p
  | succ rounds ih =>
      rw [inTurn, run_append]
      have hrest := ih (p.run rules supply (List.range workers))
        ((length_workers_run rules supply _ p).trans hp)
      by_cases hwork : p.work = 0
      · have hle := work_run_le rules supply (List.range workers) p
        omega
      · have hne : p.workers ≠ [] := List.ne_nil_of_length_pos (by omega)
        have hmoves : ∃ w p', Moves rules supply w p p' := by
          by_contra hnone
          exact hwork (AtRest.work_eq_zero (fun w p' h => hnone ⟨w, p', h⟩) hne)
        obtain ⟨w, p', hmove⟩ := hmoves
        have hw : w < p.workers.length := by
          cases hmove with
          | take hw _ | grow hw | send hw => exact (List.getElem?_eq_some_iff.mp hw).1
        have hlt := work_run_lt hmove (List.mem_range.mpr (hp ▸ hw))
        omega

end Pool

theorem workerCount_pos (available requested total : Nat) :
    0 < workerCount available requested total := by
  rw [workerCount]
  split <;> omega

open Pool in
/-- Whatever schedule the workers begin with, all sequents are grown in the end. -/
theorem growMany_eq (rules : RuleSet) (supply : Supply) (schedule : List Nat) {workers : Nat}
    (hworkers : 0 < workers) (ss : List Sequent) :
    growMany rules supply schedule workers ss =
      .ok (ss.map fun s => (ProofTree.ofSequent s).grow rules supply) := by
  obtain ⟨turns, -, hturns⟩ := exists_interleaving rules supply
    (schedule ++ inTurn workers (3 * ss.length)) (start workers ss)
  -- the schedule leaves no more work than there was, and the turns after it do the rest
  have hbefore := work_run_le rules supply schedule (start workers ss)
  have hwork := work_run_inTurn rules supply hworkers (3 * ss.length)
    ((start workers ss).run rules supply schedule)
    ((length_workers_run rules supply schedule _).trans List.length_replicate)
  rw [← run_append] at hwork
  rw [work_start] at hbefore
  exact (hturns.collect_eq hworkers (atRest_of_work_eq_zero (by omega))).2

namespace Pool

/-- **Growing several trees at once is growing each of them.**  However many workers
    are asked for and available, and in whatever order they make their moves, these
    come to an end after at most three for each sequent.  As soon as no worker can
    move, one result has been handed in for each sequent, under its number, and put
    into order they are what growing the sequents one by one gives, trees and errors
    alike.  In particular this is what comes of workers that begin with any schedule
    and move in turn after it. -/
theorem collect_of_interleaving (rules : RuleSet) (supply : Supply) (ss : List Sequent)
    (available requested : Nat) {schedule : List Nat} {p : Pool}
    (h : Interleaving rules supply (start (workerCount available requested ss.length) ss)
      schedule p) :
    p = (start (workerCount available requested ss.length) ss).run rules supply schedule ∧
    schedule.length ≤ 3 * ss.length ∧
    (AtRest rules supply p ↔ schedule.length = 3 * ss.length) ∧
    (AtRest rules supply p →
      p.results.Perm ((numbered 0 ss).map (due rules supply)) ∧
      p.collect ss.length = .ok (ss.map fun s => (ProofTree.ofSequent s).grow rules supply)) ∧
    ∀ first, growMany rules supply first (workerCount available requested ss.length) ss =
      .ok (ss.map fun s => (ProofTree.ofSequent s).grow rules supply) := by
  have hworkers := workerCount_pos available requested ss.length
  have hwork := h.work_eq
  rw [work_start] at hwork
  -- the workers are as many as at the start
  have hne : p.workers ≠ [] := by
    have hlength := h.length_workers.trans List.length_replicate
    exact List.ne_nil_of_length_pos (by omega)
  refine ⟨h.run_eq.symm, by omega, ⟨?_, ?_⟩, h.collect_eq hworkers, fun first =>
    growMany_eq rules supply first hworkers ss⟩
  · intro hrest
    have hzero := hrest.work_eq_zero hne
    omega
  · intro hlength
    exact atRest_of_work_eq_zero (by omega)

/-- One worker takes a sequent that is too large to be divided, and before it gets
    anywhere another one has grown the sequent after it. -/
theorem collect_overtaking :
    ∃ p, Interleaving (RuleSet.uniform .multiplicative) .empty
        (start (workerCount 1 5 2) [Sequent.crowd 64, ⟨[.atom ⟨"A", []⟩], []⟩])
        [0, 1, 1, 1, 0, 0] p ∧
      AtRest (RuleSet.uniform .multiplicative) .empty p ∧
      p.collect 2 = .ok
        [.error (.contextTooLarge 64), .ok (.node ⟨[.atom ⟨"A", []⟩], []⟩ [.initial] true)] := by
  have hfirst : (Sequent.crowd 64).grow (RuleSet.uniform .multiplicative) .empty =
      .error (.contextTooLarge 64) := by
    refine Sequent.grow_of_error ?_
    exact (Decomposition.of_eq_error_iff (g := ⟨.empty, Sequent.crowd 64⟩)).mpr
      ⟨⟨by decide, _, .conjunction, _, _, rfl, rfl, by decide, rfl⟩, rfl⟩
  have hsecond : Sequent.grow (RuleSet.uniform .multiplicative) .empty ⟨[.atom ⟨"A", []⟩], []⟩ =
      .ok (.node ⟨[.atom ⟨"A", []⟩], []⟩ [.initial] true) := Sequent.grow_of_initial rfl
  obtain ⟨p, hp⟩ : ∃ p, Interleaving (RuleSet.uniform .multiplicative) .empty
      (start (workerCount 1 5 2) [Sequent.crowd 64, ⟨[.atom ⟨"A", []⟩], []⟩])
      [0, 1, 1, 1, 0, 0] p :=
    ⟨_, .cons (.take rfl rfl) (.cons (.take rfl rfl) (.cons (.grow rfl) (.cons (.send rfl)
      (.cons (.grow rfl) (.cons (.send rfl) (.nil _))))))⟩
  obtain ⟨-, -, hrest, hcollect, -⟩ := collect_of_interleaving _ _ _ 1 5 hp
  obtain ⟨-, hresults⟩ := hcollect (hrest.mpr rfl)
  refine ⟨p, hp, hrest.mpr rfl, hresults.trans ?_⟩
  simp only [List.map_cons, List.map_nil, ProofTree.grow_ofSequent, hfirst, hsecond]

end Pool

end SequentCalculus
