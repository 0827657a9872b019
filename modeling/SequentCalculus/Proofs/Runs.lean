import SequentCalculus.Command.Run
import SequentCalculus.Proofs.Saving
import SequentCalculus.Proofs.Scheduling
import SequentCalculus.Proofs.Showing

/-! # A run shows all of its trees or none

    Before a run shows its first tree it has loaded a tree, read its sequents and its
    rules, made a supply of the given names, and grown a tree for each sequent.  Each
    of these stages reports what it does and then passes its value on, or else it
    ends the run (`Plan.Stage`); none of them prints or writes anything.  So a run
    fails in one of its stages and leaves no trace but its reports, or it gets to all
    of its trees (`Surroundings.planShow_cases`).

    From there on trees are shown one after the other and saved as they are shown,
    until there is no room for a file (`presented_showTrees`). -/

namespace SequentCalculus

/-! ## What is seen of a run -/

/-- Whether an action neither prints nor writes anything. -/
def Action.isSilent : Action → Bool
  | .log _ _ => true
  | .explain _ _ => true
  | _ => false

/-- Actions that neither print nor write anything. -/
def Silent (as : List Action) : Prop := ∀ a ∈ as, a.isSilent = true

theorem silent_nil : Silent [] := by
  intro a ha
  cases ha

theorem silent_append {as bs : List Action} (ha : Silent as) (hb : Silent bs) :
    Silent (as ++ bs) := by
  intro a hmem
  exact (List.mem_append.mp hmem).elim (ha a) (hb a)

theorem silent_map_log (es : List Event) (onWorker : Bool) :
    Silent (es.map fun e => .log e onWorker) := by
  intro a ha
  obtain ⟨e, -, rfl⟩ := List.mem_map.mp ha
  rfl

theorem silent_logs (es : List Event) : Silent (Plan.logs es) := silent_map_log es false

/-- What is seen of a run besides its reports: the files, the output and the exit
    code. -/
def visible (r : Disk × Outcome) : Disk × String × Nat := (r.1, r.2.output, r.2.exitCode)

/-- Silent actions first change nothing of what is seen. -/
theorem visible_append_of_silent {as : List Action} (h : Silent as) (code : Nat) (d : Disk)
    (bs : List Action) :
    visible (performActions code d (as ++ bs)) = visible (performActions code d bs) := by
  induction as with
  | nil => rfl
  | cons a as ih =>
      have hrest := ih fun b hb => h b (List.mem_cons_of_mem a hb)
      have ha := h a List.mem_cons_self
      cases a with
      | log event onWorker => exact hrest
      | explain number e => exact hrest
      | print text => cases ha
      | save p content => cases ha

/-- Of silent actions alone only the exit code is seen. -/
theorem visible_of_silent {as : List Action} (h : Silent as) (code : Nat) (d : Disk) :
    visible (performActions code d as) = (d, "", code) := by
  have happend := visible_append_of_silent h code d []
  rw [List.append_nil] at happend
  exact happend

/-- What is seen of a run that prints a text first. -/
def printing (text : String) (seen : Disk × String × Nat) : Disk × String × Nat :=
  (seen.1, text ++ seen.2.1, seen.2.2)

theorem printing_empty (seen : Disk × String × Nat) : printing "" seen = seen := by
  rw [printing, String.empty_append]

theorem printing_printing (first second : String) (seen : Disk × String × Nat) :
    printing first (printing second seen) = printing (first ++ second) seen := by
  rw [printing, printing, printing, String.append_assoc]

/-! ## The stages of a run -/

namespace Plan

/-- A stage of a run that comes to a result: it reports something, and then the run
    goes on with the value, or ends in failure. -/
inductive Stage {α : Type} (stage : (α → Plan) → Plan) : Except Error α → Prop
  | ok {as : List Action} {a : α} (hsilent : Silent as)
      (h : ∀ next, stage next = after as (next a)) : Stage stage (.ok a)
  | error {as : List Action} {e : Error} (hsilent : Silent as)
      (h : ∀ next, stage next = ⟨as, 1⟩) : Stage stage (.error e)

/-- To go on with a result is a stage. -/
theorem stage_andThen {α : Type} (r : Except Error α) : Stage (andThen r) r := by
  cases r with
  | ok a => exact .ok silent_nil fun next => rfl
  | error e => exact .error (silent_logs [.failed e]) fun next => rfl

namespace Stage

variable {α β : Type} {stage : (α → Plan) → Plan}

/-- Whatever a run goes on with, a stage ends it or passes a value on. -/
theorem ends_or_goesOn {r : Except Error α} (h : Stage stage r) (next : α → Plan) :
    (∃ e as, r = .error e ∧ Silent as ∧ stage next = ⟨as, 1⟩) ∨
      ∃ a as, r = .ok a ∧ Silent as ∧ stage next = .after as (next a) := by
  cases h with
  | ok hsilent h => exact .inr ⟨_, _, rfl, hsilent, h next⟩
  | error hsilent h => exact .inl ⟨_, _, rfl, hsilent, h next⟩

/-- A stage may report something before it starts. -/
theorem after {r : Except Error α} {as : List Action} (hsilent : Silent as)
    (h : Stage stage r) : Stage (fun next => .after as (stage next)) r := by
  cases h with
  | ok hs h =>
      refine .ok (silent_append hsilent hs) fun next => ?_
      rw [h next, Plan.after, Plan.after, Plan.after, List.append_assoc]
  | error hs h =>
      refine .error (silent_append hsilent hs) fun next => ?_
      rw [h next, Plan.after]

/-- Stages follow one another as results do. -/
theorem bind {r : Except Error α} {stages : α → (β → Plan) → Plan} {f : α → Except Error β}
    (h : Stage stage r) (hf : ∀ a, Stage (stages a) (f a)) :
    Stage (fun next => stage fun a => stages a next) (r >>= f) := by
  cases h with
  | error hs h => exact .error hs fun next => h _
  | @ok as a hs h =>
      have hthen : (fun next => stage fun a => stages a next) =
          fun next => .after as (stages a next) := funext fun next => h _
      rw [hthen]
      exact (hf a).after hs

end Stage

end Plan

open Plan

/-- The results are all there, or the first error is. -/
theorem allOk_map {α β : Type} (f : α → Except Error β) (xs : List α) :
    allOk (xs.map f) = xs.mapM f := by
  induction xs with
  | nil => rfl
  | cons x xs ih =>
      rw [List.map_cons, List.mapM_cons, ← ih]
      cases f x with
      | error e => rfl
      | ok y =>
          rw [allOk]
          cases allOk (xs.map f) <;> rfl

/-- If there are sequents, each argument is read as one. -/
theorem sequents?_eq_some {srcs : List String} {ss : List Sequent} (h : sequents? srcs = some ss) :
    List.Forall₂ (fun src s => Sequent.parse src = .ok s) srcs ss := by
  induction srcs generalizing ss with
  | nil =>
      cases h
      exact .nil
  | cons src srcs ih =>
      rw [sequents?] at h
      split at h
      · rename_i s hs
        obtain ⟨rest, hrest, rfl⟩ := Option.map_eq_some_iff.mp h
        exact .cons hs (ih hrest)
      · cases h

/-- If there are none, some argument is malformed. -/
theorem sequents?_eq_none {srcs : List String} (h : sequents? srcs = none) :
    ∃ src ∈ srcs, ∃ e, Sequent.parse src = .error e := by
  induction srcs with
  | nil => cases h
  | cons src srcs ih =>
      rw [sequents?] at h
      split at h
      · obtain ⟨bad, hbad, he⟩ := ih (Option.map_eq_none_iff.mp h)
        exact ⟨bad, List.mem_cons_of_mem src hbad, he⟩
      · rename_i e he
        exact ⟨src, List.mem_cons_self, e, he⟩

/-- Complaints go elsewhere than the output. -/
theorem silent_explanations (number : Nat) (srcs : List String) :
    Silent (explanations number srcs) := by
  induction srcs generalizing number with
  | nil => exact silent_nil
  | cons src srcs ih =>
      rw [explanations]
      refine silent_append ?_ (ih (number + 1))
      split
      · exact silent_nil
      · intro a ha
        rw [List.mem_singleton.mp ha]
        rfl

namespace Surroundings

/-- The rules of a run: those of the named file, or else those of the default file,
    or else, where there is no such file, the multiplicative ones. -/
def rulesFor (w : Surroundings) (o : Options) : Except Error RuleSet :=
  match o.rules with
  | some p => RuleSet.load p (w.view p)
  | none =>
      if (w.view w.environment.rulesPath).isPresent then
        RuleSet.load w.environment.rulesPath (w.view w.environment.rulesPath)
      else .ok (.uniform .multiplicative)

/-- Loading is a stage that comes to the loaded tree, if one is asked for. -/
theorem stage_withLoaded (w : Surroundings) (o : Options) :
    Stage (w.withLoaded o) (o.load.toList.mapM fun p => ProofTree.load p (w.view p)) := by
  unfold withLoaded
  cases o.load with
  | none => exact .ok silent_nil fun next => rfl
  | some p =>
      have hone : (some p).toList.mapM (fun p => ProofTree.load p (w.view p)) =
          ProofTree.load p (w.view p) >>= fun t => .ok [t] := rfl
      rw [hone]
      exact ((stage_andThen _).bind fun t => .ok (silent_logs _) fun next => rfl).after
        (silent_logs _)

/-- Reading the rules is a stage that comes to the rules of the run. -/
theorem stage_withRules (w : Surroundings) (o : Options) :
    Stage (w.withRules o) (w.rulesFor o) := by
  have hread : ∀ p, Stage (w.readRules p) (RuleSet.load p (w.view p)) := fun p =>
    (stage_andThen _).after (silent_logs _)
  unfold withRules rulesFor
  cases o.rules with
  | some p => exact hread p
  | none =>
      by_cases hpresent : (w.view w.environment.rulesPath).isPresent
      · simp only [if_pos hpresent]
        exact hread w.environment.rulesPath
      · simp only [if_neg hpresent]
        exact .ok (silent_logs _) fun next => rfl

/-- However many workers there are and in whatever order they make their moves, growing
    comes to the trees of all sequents, or to the first failure among them. -/
theorem stage_withGrown (w : Surroundings) (o : Options) (ss : List Sequent) (rules : RuleSet) :
    Stage (w.withGrown o ss rules) (do
      let supply ← Supply.ofNames (givenNames o)
      ss.mapM fun s => (ProofTree.ofSequent s).grow rules supply) := by
  refine (stage_andThen _).bind fun supply => ?_
  refine Stage.after (silent_append (silent_logs _) (silent_map_log _ true)) ?_
  have hgrown := growMany_eq rules supply w.schedule
    (workerCount_pos w.available (o.jobs.getD 0) ss.length) ss
  rw [growMany] at hgrown
  rw [hgrown, ← allOk_map]
  exact stage_andThen _

/-! ## Failure before the first tree is shown -/

/-- What can go wrong in a run before it shows its first tree. -/
inductive Fails (w : Surroundings) (o : Options) : Prop
  | load {p : Path} {e : Error} (hp : o.load = some p)
      (h : ProofTree.load p (w.view p) = .error e)
  | sequent {src : String} {e : ReadingError} (hsrc : src ∈ o.sequents)
      (h : Sequent.parse src = .error e)
  | rules {e : Error} (hsequents : o.sequents ≠ []) (h : w.rulesFor o = .error e)
  | names {e : Error} (hsequents : o.sequents ≠ [])
      (h : Supply.ofNames (givenNames o) = .error e)
  | growth {src : String} {s : Sequent} {rules : RuleSet} {supply : Supply} {e : Error}
      (hsrc : src ∈ o.sequents) (hs : Sequent.parse src = .ok s)
      (hrules : w.rulesFor o = .ok rules) (hsupply : Supply.ofNames (givenNames o) = .ok supply)
      (h : (ProofTree.ofSequent s).grow rules supply = .error e)

/-- The tree that a run grows from a sequent argument. -/
def Grows (w : Surroundings) (o : Options) (src : String) (t : ProofTree) : Prop :=
  ∃ s rules supply, Sequent.parse src = .ok s ∧ w.rulesFor o = .ok rules ∧
    Supply.ofNames (givenNames o) = .ok supply ∧
    (ProofTree.ofSequent s).grow rules supply = .ok t

/-- The trees of a run: the loaded one if it loads one, and the tree of each sequent
    argument. -/
structure Obtains (w : Surroundings) (o : Options) (loaded grown : List ProofTree) : Prop where
  loaded : List.Forall₂ (fun p t => ProofTree.load p (w.view p) = .ok t) o.load.toList loaded
  grown : List.Forall₂ (w.Grows o) o.sequents grown

/-- A run that gets to its trees has not failed. -/
theorem Obtains.not_fails {w : Surroundings} {o : Options} {loaded grown : List ProofTree}
    (h : w.Obtains o loaded grown) : ¬w.Fails o := by
  intro hfails
  cases hfails with
  | load hp he =>
      -- in each case one computation would come to two results
      obtain ⟨t, -, ht⟩ := forall₂_exists_right h.loaded (Option.mem_toList.mpr hp)
      cases he.symm.trans ht
  | sequent hsrc he =>
      obtain ⟨t, -, s, -, -, hs, -⟩ := forall₂_exists_right h.grown hsrc
      cases he.symm.trans hs
  | rules hsequents he =>
      obtain ⟨src, hsrc⟩ := List.exists_mem_of_ne_nil o.sequents hsequents
      obtain ⟨t, -, -, rules, -, -, hrules, -⟩ := forall₂_exists_right h.grown hsrc
      cases he.symm.trans hrules
  | names hsequents he =>
      obtain ⟨src, hsrc⟩ := List.exists_mem_of_ne_nil o.sequents hsequents
      obtain ⟨t, -, -, -, supply, -, -, hsupply, -⟩ := forall₂_exists_right h.grown hsrc
      cases he.symm.trans hsupply
  | growth hsrc hs hrules hsupply he =>
      obtain ⟨t, -, s, rules, supply, hs', hrules', hsupply', ht⟩ :=
        forall₂_exists_right h.grown hsrc
      cases hs.symm.trans hs'
      cases hrules.symm.trans hrules'
      cases hsupply.symm.trans hsupply'
      cases he.symm.trans ht

/-- A run with something to do gets to some tree. -/
theorem Obtains.ne_nil {w : Surroundings} {o : Options} {loaded grown : List ProofTree}
    (h : w.Obtains o loaded grown) (hwork : o.load.isSome ∨ o.sequents ≠ []) :
    loaded ++ grown ≠ [] := by
  intro hnil
  obtain ⟨rfl, rfl⟩ := List.append_eq_nil_iff.mp hnil
  have hload : o.load = none := Option.toList_eq_nil_iff.mp (List.forall₂_nil_right_iff.mp h.loaded)
  have hsequents : o.sequents = [] := List.forall₂_nil_right_iff.mp h.grown
  rw [hload, hsequents] at hwork
  simp at hwork

/-- The trees of the sequents of a run. -/
def grownTrees (w : Surroundings) (o : Options) (ss : List Sequent) :
    Except Error (List ProofTree) := do
  let rules ← w.rulesFor o
  let supply ← Supply.ofNames (givenNames o)
  ss.mapM fun s => (ProofTree.ofSequent s).grow rules supply

/-- The trees of the sequents are grown from the arguments. -/
theorem grows_of_grownTrees {w : Surroundings} {o : Options} {ss : List Sequent}
    {grown : List ProofTree} (hss : sequents? o.sequents = some ss)
    (h : w.grownTrees o ss = .ok grown) : List.Forall₂ (w.Grows o) o.sequents grown := by
  obtain ⟨rules, hrules, h⟩ := bind_eq_ok_iff.mp h
  obtain ⟨supply, hsupply, h⟩ := bind_eq_ok_iff.mp h
  refine (forall₂_comp (sequents?_eq_some hss) (mapM_eq_ok_iff.mp h)).imp ?_
  rintro src t ⟨s, hs, ht⟩
  exact ⟨s, rules, supply, hs, hrules, hsupply, ht⟩

/-- What fails on the way to these trees is a failure of the run. -/
theorem fails_of_grownTrees {w : Surroundings} {o : Options} {ss : List Sequent} {e : Error}
    (hss : sequents? o.sequents = some ss) (hne : o.sequents ≠ [])
    (h : w.grownTrees o ss = .error e) : w.Fails o := by
  rw [grownTrees] at h
  cases hrules : w.rulesFor o with
  | error e' => exact .rules hne hrules
  | ok rules =>
      cases hsupply : Supply.ofNames (givenNames o) with
      | error e' => exact .names hne hsupply
      | ok supply =>
          rw [hrules, hsupply] at h
          obtain ⟨s, hs, he⟩ := exists_mem_of_mapM_eq_error h
          obtain ⟨src, hsrc, hparse⟩ := forall₂_exists_left (sequents?_eq_some hss) hs
          exact .growth hsrc hparse hrules hsupply he

/-- A run fails without showing anything, or it gets to all of its trees before it
    shows the first. -/
theorem planShow_cases (w : Surroundings) (o : Options) :
    (w.Fails o ∧ ∃ as, Silent as ∧ w.planShow o = ⟨as, 1⟩) ∨
      ∃ loaded grown as, w.Obtains o loaded grown ∧ Silent as ∧
        w.planShow o = after as (w.present o (loaded ++ grown)) := by
  rw [planShow]
  obtain ⟨e, as, hloaded, hsilent, h⟩ | ⟨loaded, before, hloaded, hbefore, h⟩ :=
    (w.stage_withLoaded o).ends_or_goesOn _
  · obtain ⟨p, hp, he⟩ := exists_mem_of_mapM_eq_error hloaded
    exact .inl ⟨.load (Option.mem_toList.mp hp) he, as, hsilent, h⟩
  have hloaded := mapM_eq_ok_iff.mp hloaded
  rw [h]
  by_cases hempty : o.sequents = []
  · -- Without sequents neither the rules nor the names matter.
    refine .inr ⟨loaded, [], before, ⟨hloaded, ?_⟩, hbefore, ?_⟩
    · rw [hempty]
      exact .nil
    · rw [hempty, List.append_nil]
      rfl
  rw [if_neg (by simpa using hempty)]
  cases hss : sequents? o.sequents with
  | none =>
      obtain ⟨src, hsrc, e, he⟩ := sequents?_eq_none hss
      exact .inl ⟨.sequent hsrc he, _,
        silent_append hbefore (silent_explanations 1 o.sequents), rfl⟩
  | some ss =>
      -- rules, names and growth are stages of one result
      have hstage : Stage _ (w.grownTrees o ss) :=
        ((w.stage_withRules o).bind (w.stage_withGrown o ss)).after hbefore
      obtain ⟨e, as, hgrown, hsilent, h⟩ | ⟨grown, as, hgrown, hsilent, h⟩ :=
        hstage.ends_or_goesOn fun grown => w.present o (loaded ++ grown)
      · exact .inl ⟨fails_of_grownTrees hss hempty hgrown, as, hsilent, h⟩
      · exact .inr ⟨loaded, grown, as, ⟨hloaded, grows_of_grownTrees hss hgrown⟩, hsilent, h⟩

end Surroundings

/-! ## Showing and saving -/

/-- What is seen of a run that shows trees on a disk, and saves them if it is asked
    to.  If there is no room for the file of a tree, the run ends after this tree has
    been shown; the trees before it stay saved, and what directories were made for
    it stay as well. -/
inductive Presented (coloured : Bool) (o : Options) (ts : List ProofTree) (d : Disk) :
    Disk × String × Nat → Prop
  | shown {output : String} (hsave : o.save = none)
      (hshows : Shows coloured o.split ts output) : Presented coloured o ts d (d, output, 0)
  | saved {base : Path} {e : Disk} {output : String} (hsave : o.save = some base)
      (hshows : Shows coloured o.split ts output) (hsaved : Disk.Saved base ts.length ts d e) :
      Presented coloured o ts d (e, output, 0)
  | refused {base : Path} {before after : List ProofTree} {t : ProofTree} {e e' : Disk}
      {output : String} (hsave : o.save = some base) (hts : ts = before ++ t :: after)
      (hshows : Shows coloured o.split (before ++ [t]) output)
      (hsaved : Disk.Saved base ts.length before d e) (hextends : e.Extends e')
      (hroom : ∀ f, ¬Disk.HasRoom base ts.length (before.length + 1) d f) :
      Presented coloured o ts d (e', output, 1)

/-- The actions that show a tree print its outline, or its derivations, and its
    summary. -/
theorem visible_showTree (coloured split : Bool) (t : ProofTree) (code : Nat) (d : Disk)
    (as : List Action) :
    visible (performActions code d (showTree coloured split t ++ as)) =
      printing ((if split then derivationsText coloured t.split.length 1 t.split
        else outlineText coloured t) ++ summary t) (visible (performActions code d as)) := by
  rw [← printing_printing]
  cases split with
  | false => rfl
  | true =>
      show visible (performActions code d (logs t.splitEvents ++ _ ++ as)) = _
      rw [List.append_assoc, visible_append_of_silent (silent_logs _)]
      rfl

/-- The actions that show a tree print its text before whatever comes after it. -/
theorem visible_treeText (coloured split : Bool) (index : Nat) (t : ProofTree) (code : Nat)
    (d : Disk) (as : List Action) :
    visible (performActions code d
        ((if index = 0 then [] else [.print "\n"]) ++ showTree coloured split t ++ as)) =
      printing (treeText coloured split index t) (visible (performActions code d as)) := by
  rw [List.append_assoc, treeText, ← printing_printing, ← visible_showTree]
  by_cases hindex : index = 0
  · rw [if_pos hindex, if_pos hindex, printing_empty, List.nil_append]
  · rw [if_neg hindex, if_neg hindex]
    rfl

/-- A tree that is saved is on the disk before the run goes on, or else the run ends. -/
theorem visible_saveTree (p : Path) (t : ProofTree) (code : Nat) (d : Disk) (as : List Action) :
    (∃ d', d.save p (t.stored p) = (d', true) ∧
      visible (performActions code d (saveTree p t ++ as)) = visible (performActions code d' as)) ∨
    ∃ d', d.save p (t.stored p) = (d', false) ∧
      visible (performActions code d (saveTree p t ++ as)) = (d', "", 1) := by
  rw [saveTree, List.append_assoc, List.append_assoc, visible_append_of_silent (silent_logs _),
    List.singleton_append, performActions]
  cases hsave : d.save p (t.stored p) with
  | mk d' isSaved =>
      cases isSaved with
      | true => exact .inl ⟨d', rfl, visible_append_of_silent (silent_logs _) code d' as⟩
      | false => exact .inr ⟨d', rfl, rfl⟩

theorem printing_treesText_concat (coloured split : Bool) (ts : List ProofTree) (t : ProofTree)
    (seen : Disk × String × Nat) :
    printing (treesText coloured split ts) (printing (treeText coloured split ts.length t) seen) =
      printing (treesText coloured split (ts ++ [t])) seen := by
  rw [printing_printing, treesText_concat]

theorem printing_last (text : String) (d : Disk) (code : Nat) :
    printing text (d, "", code) = (d, text, code) := by
  rw [printing, String.append_empty]

/-- A run that saves nothing shows all its trees.  Those in `shown` have been shown. -/
theorem visible_showTrees_unsaved (coloured : Bool) {o : Options} (hsave : o.save = none)
    (total : Nat) (shown ts : List ProofTree) (d : Disk) :
    printing (treesText coloured o.split shown)
        (visible (performActions 0 d (showTrees coloured o total shown.length ts))) =
      (d, treesText coloured o.split (shown ++ ts), 0) := by
  induction ts generalizing shown with
  | nil =>
      rw [List.append_nil]
      exact printing_last _ d 0
  | cons t ts ih =>
      have hnext := ih (shown ++ [t])
      rw [List.length_append, List.length_singleton, List.append_assoc] at hnext
      rw [showTrees, hsave, List.append_nil, visible_treeText, printing_treesText_concat]
      exact hnext

/-- A run that saves its trees shows and saves them one after the other.  Those in
    `shown` have been, which led from the disk `d` to the disk `e`. -/
theorem presented_showTrees_saved (coloured : Bool) {o : Options} {base : Path}
    (hsave : o.save = some base) {d e : Disk} (shown ts : List ProofTree)
    (hsaved : Disk.Saved base (shown ++ ts).length shown d e) :
    Presented coloured o (shown ++ ts) d (printing (treesText coloured o.split shown)
      (visible (performActions 0 e
        (showTrees coloured o (shown ++ ts).length shown.length ts)))) := by
  induction ts generalizing shown e with
  | nil =>
      rw [List.append_nil] at hsaved ⊢
      show Presented coloured o shown d (printing _ (e, "", 0))
      rw [printing_last]
      exact .saved hsave (shows_treesText coloured o.split shown) hsaved
  | cons t ts ih =>
      rw [showTrees, hsave, List.append_assoc, visible_treeText, printing_treesText_concat]
      -- the number of this tree is one of those that belong to it
      have hlt : shown.length < (shown ++ t :: ts).length := by
        rw [List.length_append, List.length_cons]
        omega
      obtain ⟨e', hwrite, hrest⟩ | ⟨e', hwrite, hrest⟩ :=
        visible_saveTree (base.numbered shown.length (shown ++ t :: ts).length) t 0 e
          (showTrees coloured o (shown ++ t :: ts).length (shown.length + 1) ts)
      · rw [hrest]
        obtain ⟨-, hsaved'⟩ := (hsaved.save_next hlt t hwrite).resolve_right fun h => by
          cases h.1
        have hlength : (shown ++ [t]).length = shown.length + 1 := by
          rw [List.length_append, List.length_singleton]
        have hnext := ih (shown ++ [t]) (e := e')
        rw [List.append_assoc, hlength] at hnext
        exact hnext hsaved'
      · rw [hrest, printing_last]
        obtain ⟨-, hextends, hroom⟩ := (hsaved.save_next hlt t hwrite).resolve_left fun h => by
          cases h.1
        exact .refused hsave rfl (shows_treesText coloured o.split _) hsaved hextends hroom

/-- Performing what is planned for trees presents them. -/
theorem presented_showTrees (coloured : Bool) (o : Options) (ts : List ProofTree) (d : Disk) :
    Presented coloured o ts d
      (visible (performActions 0 d (showTrees coloured o ts.length 0 ts))) := by
  rw [← printing_empty (visible _)]
  cases hsave : o.save with
  | none =>
      have hshown := visible_showTrees_unsaved coloured hsave ts.length [] ts d
      rw [List.nil_append] at hshown
      exact hshown ▸ .shown hsave (shows_treesText coloured o.split ts)
  | some base => exact presented_showTrees_saved coloured hsave [] ts (.nil base _ d)

/-- **A run shows all of its trees or none**, whichever of its stages fails, however
    many workers there are and in whatever order these make their moves.  Where
    something fails, nothing is printed, nothing changes on the disk, and the exit
    code is 1.  Otherwise the loaded tree and then the trees of the sequent arguments
    are shown and saved in this order. -/
theorem Disk.visible_run_present (d : Disk) (env : Environment) (available : Nat)
    (schedule : List Nat) {args : List String} {o : Options}
    (hargs : Invocation.parse? args = some (.present o))
    (hwork : o.load.isSome ∨ o.sequents ≠ []) :
    ((d.surroundings env available schedule).Fails o →
      visible (d.run env available schedule args) = (d, "", 1)) ∧
    (¬(d.surroundings env available schedule).Fails o →
      ∃ loaded grown, (d.surroundings env available schedule).Obtains o loaded grown ∧
        Presented env.isColoured o (loaded ++ grown) d
          (visible (d.run env available schedule args))) := by
  have hrun : d.run env available schedule args =
      performActions ((d.surroundings env available schedule).planShow o).exitCode d
        ((d.surroundings env available schedule).planShow o).actions := by
    rw [run, hargs]
    rfl
  rw [hrun]
  obtain ⟨hfails, as, hsilent, hplan⟩ | ⟨loaded, grown, as, hobtains, hsilent, hplan⟩ :=
    (d.surroundings env available schedule).planShow_cases o
  · rw [hplan]
    exact ⟨fun _ => visible_of_silent hsilent 1 d, fun h => absurd hfails h⟩
  · refine ⟨fun h => absurd h hobtains.not_fails, fun _ => ⟨loaded, grown, hobtains, ?_⟩⟩
    -- there is something to show, so the run does not give up
    have hne : (loaded ++ grown).isEmpty = false :=
      List.isEmpty_eq_false_iff.mpr (hobtains.ne_nil hwork)
    rw [hplan, Surroundings.present, hne, Plan.after, visible_append_of_silent hsilent]
    exact presented_showTrees env.isColoured o _ d

/-- The options of a run that grows a tree for `A & B; B` and saves it. -/
def Options.savedConjunction : Options :=
  { save := some ⟨"/out/t.toml"⟩, sequents := ["A & B; B"] }

/-- A disk with nothing but the directory in which a run works. -/
def Disk.onlyHome : Disk := { working := ["home".toList] }

/-- A malformed second argument keeps the tree of the first from being shown and
    saved.  Without it the tree is saved, to a directory that the run makes. -/
theorem Disk.visible_run_malformedSecond :
    visible (onlyHome.run {} 4 [1, 0, 1] ["--save", "/out/t.toml", "A & B; B", "A &"]) =
        (onlyHome, "", 1) ∧
      ∃ t e output, visible (onlyHome.run {} 4 [1, 0, 1] ["--save", "/out/t.toml", "A & B; B"]) =
          (e, output, 0) ∧ output = linesText (shownLines false [t]) ∧
        e.entry ⟨"/out/t.toml"⟩ = .file (t.stored ⟨"/out/t.toml"⟩) := by
  constructor
  · have hargs : Invocation.parse? ["--save", "/out/t.toml", "A & B; B", "A &"] =
        some (.present { save := some ⟨"/out/t.toml"⟩, sequents := ["A & B; B", "A &"] }) := rfl
    have hsrc : "A &" ∈ ["A & B; B", "A &"] := by decide
    have hparse : (Sequent.parse "A &").toOption = none := by decide +kernel
    cases he : Sequent.parse "A &" with
    | ok s =>
        rw [he] at hparse
        cases hparse
    | error e =>
        exact (visible_run_present onlyHome {} 4 [1, 0, 1] hargs (.inr (List.cons_ne_nil _ _))).1
          (.sequent hsrc he)
  · have hargs : Invocation.parse? ["--save", "/out/t.toml", "A & B; B"] =
        some (.present .savedConjunction) := rfl
    have hmissing : onlyHome.entry (Environment.rulesPath {}) = .missing := by
      show onlyHome.entry ⟨"seqtree/rules.toml"⟩ = .missing
      rw [entry, place, if_neg (by decide), String.contains_char_eq]
      decide +kernel
    have hrules : (onlyHome.surroundings {} 4 [1, 0, 1]).rulesFor .savedConjunction =
        .ok (.uniform .multiplicative) := by
      simp only [Surroundings.rulesFor, Options.savedConjunction, surroundings, hmissing]
      rfl
    obtain ⟨t, ht⟩ : ∃ t, (ProofTree.ofSequent
        ⟨[.binary .conjunction (.atom ⟨"A", []⟩) (.atom ⟨"B", []⟩)], [.atom ⟨"B", []⟩]⟩).grow
        (RuleSet.uniform .multiplicative) .empty = .ok t := exists_eq_ok (by decide_cbv)
    have hgrows : (onlyHome.surroundings {} 4 [1, 0, 1]).Grows .savedConjunction "A & B; B" t :=
      ⟨_, _, _, by decide +kernel, hrules, by decide +kernel, ht⟩
    have hobtains : (onlyHome.surroundings {} 4 [1, 0, 1]).Obtains .savedConjunction [] [t] :=
      ⟨.nil, .cons hgrows .nil⟩
    obtain ⟨loaded, grown, ⟨hloaded, hgrown⟩, hpresented⟩ :=
      (visible_run_present onlyHome {} 4 [1, 0, 1] hargs (.inr (List.cons_ne_nil _ _))).2
        hobtains.not_fails
    -- once there is a directory the file has its place
    have hroom : HasRoom ⟨"/out/t.toml"⟩ 1 1 onlyHome (onlyHome.withDirectory ["out".toList]) := by
      refine ⟨onlyHome.extends_withDirectory _, fun i hi => ⟨["out".toList, "t.toml".toList], ?_⟩⟩
      obtain rfl : i = 0 := by omega
      have hnumbered : Path.numbered ⟨"/out/t.toml"⟩ 0 1 = ⟨"/out/t.toml"⟩ := rfl
      rw [hnumbered, target?, place_of_followable ⟨by decide, by decide, by decide⟩]
      decide +kernel
    cases hloaded
    cases hgrown with
    | @cons _ t _ _ _ hrest =>
        cases hrest
        generalize visible _ = seen at hpresented ⊢
        cases hpresented with
        | shown hsave _ => cases hsave
        | saved hsave hshows hsaved =>
            cases hsave
            exact ⟨t, _, _, rfl, hshows.plain rfl, hsaved.content 0 t rfl⟩
        | @refused base before _ _ _ _ _ hsave hts _ _ _ hnone =>
            cases hsave
            have hlength := congrArg List.length hts
            rw [List.length_append, List.length_cons] at hlength
            obtain rfl : before = [] := List.length_eq_zero_iff.mp (by simp at hlength; omega)
            exact absurd hroom (hnone _)

end SequentCalculus
