import SequentCalculus.Batch
import SequentCalculus.Command.Arguments
import SequentCalculus.Command.Environment
import SequentCalculus.Grammar.Reading
import SequentCalculus.ProofTree.Outline
import SequentCalculus.ProofTree.Split
import SequentCalculus.Rule.File
import SequentCalculus.Storage.File
import SequentCalculus.Text.Blank

/-! # What the command does — a run as a list of actions

    A run is planned from its invocation, the environment and what stands at
    the paths that it reads.  The plan is a list of actions and an exit code;
    an action that fails ends the run. -/

namespace SequentCalculus

/-- The name and version that the command reports. -/
def versionText : String := "seqtree " ++ storageVersion.text ++ "\n"

/-- One step of a run. -/
inductive Action
  /-- Write to standard output. -/
  | print (text : String)
  /-- Report an event, from the main thread or from a worker. -/
  | log (event : Event) (onWorker : Bool)
  /-- Explain why an argument is no sequent. -/
  | explain (number : Nat) (e : ReadingError)
  /-- Write a file and the directories above it. -/
  | save (path : Path) (content : List UInt8)
  deriving DecidableEq, Repr

/-- What a run does, and its exit code if every action succeeds. -/
structure Plan where
  actions : List Action
  exitCode : Nat
  deriving DecidableEq, Repr

/-- What a run knows of its surroundings. -/
structure Surroundings where
  environment : Environment
  /-- What stands at a path. -/
  view : Path → Entry
  /-- The number of workers used if none is asked for. -/
  available : Nat
  /-- The order in which the workers make their moves, as far as it is given. -/
  schedule : List Nat

namespace Plan

/-- Actions before a plan. -/
def after (as : List Action) (p : Plan) : Plan := { p with actions := as ++ p.actions }

/-- Events of the main thread. -/
def logs (es : List Event) : List Action := es.map fun e => .log e false

/-- The end of a run that reports a last event. -/
def giveUp (e : Event) : Plan := ⟨logs [e], 1⟩

/-- Goes on with a result, or gives up with its error. -/
def andThen {α : Type} (r : Except Error α) (k : α → Plan) : Plan :=
  match r with
  | .ok a => k a
  | .error e => giveUp (.failed e)

end Plan

open Plan

/-! ## Showing trees -/

/-- The outline of a tree on a line of its own. -/
def outlineText (coloured : Bool) (t : ProofTree) : String :=
  (if coloured then t.styled.coloured else t.outline) ++ "\n"

/-- The outlines of all derivations, each under its number. -/
def derivationsText (coloured : Bool) (total : Nat) : Nat → List ProofTree → String
  | _, [] => ""
  | i, t :: ts =>
      "derivation " ++ toString i ++ "/" ++ toString total ++ "\n" ++ outlineText coloured t ++
        derivationsText coloured total (i + 1) ts

/-- The line that sums a tree up. -/
def summary (t : ProofTree) : String :=
  (if t.isClosed then "closed" else "open") ++ " (" ++ toString t.alternatives ++
    " alternative derivation(s), depth " ++ toString t.depth ++ ", " ++
    toString t.leafCount ++ " leaves)\n"

/-- The actions that show one tree. -/
def showTree (coloured split : Bool) (t : ProofTree) : List Action :=
  if split then
    logs t.splitEvents ++
      [.print (derivationsText coloured t.split.length 1 t.split), .print (summary t)]
  else [.print (outlineText coloured t), .print (summary t)]

/-- The actions that save one tree. -/
def saveTree (p : Path) (t : ProofTree) : List Action :=
  logs (ProofTree.storedEvents p) ++ [.save p (t.stored p)] ++
    logs [.saved p, .treeSaved t.root p]

/-- The actions that show and save trees, counted from `index` on. -/
def showTrees (coloured : Bool) (o : Options) (total : Nat) :
    Nat → List ProofTree → List Action
  | _, [] => []
  | index, t :: ts =>
      (if index = 0 then [] else [.print "\n"]) ++ showTree coloured o.split t ++
        (match o.save with
          | some p => saveTree (p.numbered index total) t
          | none => []) ++
        showTrees coloured o total (index + 1) ts

/-! ## Reading sequents -/

/-- The complaints about malformed sequents, counted from `number` on. -/
def explanations : Nat → List String → List Action
  | _, [] => []
  | number, src :: rest =>
      (match Sequent.parse src with
        | .ok _ => []
        | .error e => [.explain number e]) ++ explanations (number + 1) rest

/-- All sequents, if every one of them is well formed. -/
def sequents? : List String → Option (List Sequent)
  | [] => some []
  | src :: rest =>
      match Sequent.parse src with
      | .ok s => (sequents? rest).map (s :: ·)
      | .error _ => none

/-! ## The steps of a run -/

/-- The results, if none of them is an error; otherwise the first error. -/
def allOk {α : Type} : List (Except Error α) → Except Error (List α)
  | [] => .ok []
  | .error e :: _ => .error e
  | .ok a :: rest =>
      match allOk rest with
      | .error e => .error e
      | .ok as => .ok (a :: as)

namespace Surroundings

/-- Loads the tree that the options name. -/
def withLoaded (w : Surroundings) (o : Options) (k : List ProofTree → Plan) : Plan :=
  match o.load with
  | none => k []
  | some p =>
      .after (logs (ProofTree.loadEvents p (w.view p))) <|
        andThen (ProofTree.load p (w.view p)) fun t =>
          .after (logs [.treeLoaded t.root p]) (k [t])

/-- Reads a rule file. -/
def readRules (w : Surroundings) (p : Path) (k : RuleSet → Plan) : Plan :=
  let r := RuleSet.load p (w.view p)
  .after (logs (RuleSet.loadedEvents p.text r)) (andThen r k)

/-- The rules of the named file, or of the default file if there is one. -/
def withRules (w : Surroundings) (o : Options) (k : RuleSet → Plan) : Plan :=
  match o.rules with
  | some p => w.readRules p k
  | none =>
      let p := w.environment.rulesPath
      if (w.view p).isPresent then w.readRules p k
      else .after (logs [.rulesMissing p]) (k (.uniform .multiplicative))

/-- The names given as witnesses, without blanks around them. -/
def givenNames (o : Options) : List String :=
  (o.names.map fun n => String.ofList (trimBlanks n.toList)).filter fun n => !n.isEmpty

/-- Grows a tree for every sequent. -/
def withGrown (w : Surroundings) (o : Options) (ss : List Sequent) (rules : RuleSet)
    (k : List ProofTree → Plan) : Plan :=
  andThen (Supply.ofNames (givenNames o)) fun supply =>
    let workers := workerCount w.available (o.jobs.getD 0) ss.length
    let pool := growPool rules supply w.schedule workers ss
    .after (logs [.growingMany ss.length workers] ++ pool.events.map fun e => .log e true) <|
      andThen (pool.collect ss.length) fun results => andThen (allOk results) k

/-- Shows and saves all trees. -/
def present (w : Surroundings) (o : Options) (ts : List ProofTree) : Plan :=
  if ts.isEmpty then giveUp .nothingToDo
  else ⟨showTrees w.environment.isColoured o ts.length 0 ts, 0⟩

/-- A run that shows trees: first the loaded one, then those of the sequents. -/
def planShow (w : Surroundings) (o : Options) : Plan :=
  w.withLoaded o fun loaded =>
    if o.sequents.isEmpty then w.present o loaded
    else
      match sequents? o.sequents with
      | none => ⟨explanations 1 o.sequents, 1⟩
      | some ss =>
          w.withRules o fun rules =>
            w.withGrown o ss rules fun grown => w.present o (loaded ++ grown)

/-- A run that writes a rule file. -/
def planInitRules (w : Surroundings) (file : Option Path) (additive force : Bool) : Plan :=
  let p := file.getD w.environment.rulesPath
  let d : Discipline := if additive then .additive else .multiplicative
  if (w.view p).isPresent && !force then giveUp (.rulesExist p)
  else
    ⟨[.save p (utf8Bytes (RuleSet.uniform d).toText),
      .print ("Wrote " ++ d.key ++ " rule configuration to " ++ p.text ++ "\n")], 0⟩

/-- The plan of a command line.  A malformed one has exit code 2. -/
def plan (w : Surroundings) : Option Invocation → Plan
  | none => ⟨[], 2⟩
  | some .help => ⟨[], 0⟩
  | some .version => ⟨[.print versionText], 0⟩
  | some (.initRules file additive force) => w.planInitRules file additive force
  | some (.present o) => w.planShow o

end Surroundings

end SequentCalculus
